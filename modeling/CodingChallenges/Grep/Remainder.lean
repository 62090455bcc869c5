import CodingChallenges.Grep.Decoding

/-!
# The Rest of a Pattern

When a pattern is compiled whole, and when only a part of it is.

`compileRegex` does not look at what the parser leaves of the pattern. The
parser leaves something only if it stops at a closing parenthesis, and whether
it does can be seen without it. A scan over the pattern counts the parentheses
that are open. Where a bracket group starts the scan skips to its end, since a
parenthesis in it is a literal. A backslash protects nothing: the parser reads
`\(` as a literal backslash and the opening of a group.

Each parser leaves the scan where it was. A leaf takes bytes that the scan
passes over, or one bracket group, and a group takes one parenthesis of either
kind. So the scan of the pattern is the scan of its rest, which is empty or
starts with a parenthesis that nothing opened.

## Main definitions

* `bracketLength`: The bytes of a bracket group.
* `closesUnopened`: The scan for a parenthesis that nothing opened.
* `Plain`: Bytes the scan passes over.
* `KeepsScan`: The parser leaves the scan where it was.
* `ConsumedWhole`: Nothing of the pattern is left.

## Theorems

* `parseSubExpressionItem_keepsScan`, `parseExpression_keepsScan`: No parser
  opens or closes a parenthesis on balance.
* `compileRegex_consumedWhole_iff`: The compiled patterns that are compiled
  whole.
-/

namespace CodingChallenges

namespace Grep

/-- How many bytes the parser reads as a bracket group, or one where it reads
    none. -/
def bracketLength (regex : List Byte) : Nat :=
  match parseCharacterGroup regex with
  | .ok ⟨_, rest⟩ => regex.length - rest.length
  | .error _ => 1

/-- Whether a closing parenthesis comes without an opening one, given how many
    bytes are left to skip and how many parentheses are open. -/
def closesUnopened : Nat → Nat → List Byte → Bool
  | _, _, [] => false
  | skip + 1, depth, _ :: rest => closesUnopened skip depth rest
  | 0, depth, c :: rest =>
    if c = byte '(' then
      closesUnopened 0 (depth + 1) rest
    else if c = byte ')' then
      depth == 0 || closesUnopened 0 (depth - 1) rest
    else if c = byte '[' then
      closesUnopened (bracketLength (c :: rest) - 1) depth rest
    else
      closesUnopened 0 depth rest

/-- The scan passes over these bytes. -/
def Plain (w : List Byte) : Prop :=
  ∀ c ∈ w, c ≠ byte '(' ∧ c ≠ byte ')' ∧ c ≠ byte '['

/-- The parser leaves the scan where it was. -/
def KeepsScan {ε α : Type} (parse : List Byte → Except ε (ParseValue α)) : Prop :=
  ∀ regex value rest depth, parse regex = .ok ⟨value, rest⟩ →
    closesUnopened 0 depth regex = closesUnopened 0 depth rest

/-- The parser takes all of the pattern, or there is nothing to take. -/
def ConsumedWhole (pattern : List Byte) : Prop :=
  pattern = [] ∨ ∃ regex, parseRegex pattern = .ok ⟨regex, []⟩

section Scan

theorem closesUnopened_skip (w rest : List Byte) (depth : Nat) :
    closesUnopened w.length depth (w ++ rest) = closesUnopened 0 depth rest := by
  induction w with
  | nil => rfl
  | cons c w ih => exact ih

theorem closesUnopened_opening (depth : Nat) (rest : List Byte) :
    closesUnopened 0 depth (byte '(' :: rest) = closesUnopened 0 (depth + 1) rest := by
  rw [closesUnopened, if_pos rfl]

theorem closesUnopened_closing (depth : Nat) (rest : List Byte) :
    closesUnopened 0 (depth + 1) (byte ')' :: rest) = closesUnopened 0 depth rest := by
  rw [closesUnopened, if_neg (by decide), if_pos rfl]
  rfl

theorem closesUnopened_plain {w : List Byte} (hw : Plain w) (rest : List Byte) (depth : Nat) :
    closesUnopened 0 depth (w ++ rest) = closesUnopened 0 depth rest := by
  induction w with
  | nil => rfl
  | cons c w ih =>
      rcases hw c List.mem_cons_self with ⟨hopen, hclose, hbracket⟩
      rw [List.cons_append, closesUnopened, if_neg hopen, if_neg hclose, if_neg hbracket]
      exact ih fun d hd => hw d (List.mem_cons_of_mem c hd)

end Scan

section Leaves

theorem Plain.append {u v : List Byte} (hu : Plain u) (hv : Plain v) : Plain (u ++ v) := by
  intro c hc
  rcases List.mem_append.mp hc with h | h
  · exact hu c h
  · exact hv c h

theorem Plain.cons {c : Byte} {w : List Byte}
    (hc : c ≠ byte '(' ∧ c ≠ byte ')' ∧ c ≠ byte '[') (hw : Plain w) : Plain (c :: w) := by
  intro d hd
  rcases List.mem_cons.mp hd with rfl | hd
  · exact hc
  · exact hw d hd

theorem plain_nil : Plain [] :=
  fun _ hc => absurd hc List.not_mem_nil

/-- Bytes of a kind that none of the three belongs to. -/
theorem plain_of_forall {p : Byte → Prop} {w : List Byte} (h : ∀ c ∈ w, p c)
    (hopen : ¬ p (byte '(')) (hclose : ¬ p (byte ')')) (hbracket : ¬ p (byte '[')) :
    Plain w := by
  intro c hc
  have hp := h c hc
  refine ⟨?_, ?_, ?_⟩
  · intro heq
    exact hopen (heq ▸ hp)
  · intro heq
    exact hclose (heq ▸ hp)
  · intro heq
    exact hbracket (heq ▸ hp)

theorem SpellsNumber.plain {number : Nat} {w : List Byte} (h : SpellsNumber number w) :
    Plain w :=
  plain_of_forall h.2.1 (by decide) (by decide) (by decide)

theorem SpellsRangeQuantifier.plain {range : RangeQuantifier} {w : List Byte}
    (h : SpellsRangeQuantifier range w) : Plain w := by
  have hclose : Plain [byte '}'] := Plain.cons (by decide) plain_nil
  cases h with
  | exactly hu => exact Plain.cons (by decide) (hu.plain.append hclose)
  | atLeast hu => exact Plain.cons (by decide) (hu.plain.append (Plain.cons (by decide) hclose))
  | between hl hu _ =>
      have hlower : Plain (byte '{' :: _) := Plain.cons (by decide) hl.plain
      exact (hlower.append (Plain.cons (by decide) hu.plain)).append hclose

theorem plain_lazySuffix (lazyModifier : Bool) : Plain (lazySuffix lazyModifier) := by
  cases lazyModifier with
  | false => exact plain_nil
  | true => exact Plain.cons (by decide) plain_nil

theorem SpellsQuantifier.plain {quantifier : Quantifier} {w : List Byte}
    (h : SpellsQuantifier quantifier w) : Plain w := by
  cases h with
  | zeroOrMore lazyModifier => exact Plain.cons (by decide) (plain_lazySuffix lazyModifier)
  | oneOrMore lazyModifier => exact Plain.cons (by decide) (plain_lazySuffix lazyModifier)
  | zeroOrOne lazyModifier => exact Plain.cons (by decide) (plain_lazySuffix lazyModifier)
  | range hrange lazyModifier => exact hrange.plain.append (plain_lazySuffix lazyModifier)

theorem SpellsCharacterClass.plain {c : CharacterClass} {w : List Byte}
    (h : SpellsCharacterClass c w) : Plain w := by
  rw [h]
  refine Plain.cons (by decide) (Plain.cons ?_ plain_nil)
  cases c.type <;> decide

theorem SpellsUnicodeCategory.plain {c : CharacterClassFromUnicodeCategory} {w : List Byte}
    (h : SpellsUnicodeCategory c w) : Plain w := by
  rcases h with ⟨-, hletters, rfl⟩
  have hopening : Plain [byte '\\', byte 'p', byte '{'] :=
    Plain.cons (by decide) (Plain.cons (by decide) (Plain.cons (by decide) plain_nil))
  have hname : Plain c.categoryName.letters :=
    plain_of_forall hletters (by decide) (by decide) (by decide)
  exact (hopening.append hname).append (Plain.cons (by decide) plain_nil)

theorem SpellsAnchor.plain {anchor : Anchor} {w : List Byte} (h : SpellsAnchor anchor w) :
    Plain w := by
  rcases anchor with ⟨type⟩
  cases type
  case endOfString =>
    rw [show w = [byte '$'] from h]
    exact Plain.cons (by decide) plain_nil
  all_goals
    rw [show w = [byte '\\', _] from h]
    exact Plain.cons (by decide) (Plain.cons (by decide) plain_nil)

theorem SpellsBackreference.plain {number : Nat} {w : List Byte}
    (h : SpellsBackreference number w) : Plain w := by
  rcases h with ⟨u, rfl, hu⟩
  exact Plain.cons (by decide) hu.plain

/-- No continuation byte is an ASCII character. -/
theorem plain_tails {w : List Byte} (h : ∀ c ∈ w, Utf8Tail c) : Plain w := by
  have hascii : ∀ c : Byte, c < 0x80 → ¬ Utf8Tail c := by
    intro c hc htail
    exact absurd htail.1 (UInt8.not_le.mpr hc)
  exact plain_of_forall h (hascii _ (by decide)) (hascii _ (by decide)) (hascii _ (by decide))

/-- What a code point takes besides its first byte is not ASCII. -/
theorem parseChar_rest {c : Byte} {regex rest : List Byte} {character : Nat}
    (h : parseChar (c :: regex) = .ok ⟨character, rest⟩) : ∃ w, regex = w ++ rest ∧ Plain w := by
  rcases parseChar_form h with ⟨w, hregex, hw⟩
  cases hw with
  | one _ =>
      cases hregex
      exact ⟨[], rfl, plain_nil⟩
  | two _ _ hb =>
      cases hregex
      refine ⟨[_], rfl, plain_tails ?_⟩
      simp only [List.forall_mem_singleton]
      exact hb
  | three _ _ hb hc =>
      cases hregex
      refine ⟨[_, _], rfl, plain_tails ?_⟩
      simp only [List.forall_mem_cons]
      exact ⟨hb, hc, List.forall_mem_nil _⟩
  | four _ _ hb hc hd =>
      cases hregex
      refine ⟨[_, _, _], rfl, plain_tails ?_⟩
      simp only [List.forall_mem_cons]
      exact ⟨hb, hc, hd, List.forall_mem_nil _⟩

/-- A parser of leaves that only takes plain bytes. -/
theorem Sound.keepsScan {ε α : Type} {parse : List Byte → Except ε (ParseValue α)}
    {spells : α → List Byte → Prop} (h : Sound parse spells)
    (hplain : ∀ value w, spells value w → Plain w) : KeepsScan parse := by
  intro regex value rest depth hparse
  rcases h regex value rest hparse with ⟨w, rfl, -, hw⟩
  exact closesUnopened_plain (hplain value w hw) rest depth

theorem parseQuantifier_keepsScan : KeepsScan parseQuantifier :=
  parseQuantifier_sound.keepsScan fun _ _ h => h.plain

/-- The scan skips a bracket group. -/
theorem parseCharacterGroup_keepsScan : KeepsScan parseCharacterGroup := by
  intro regex group rest depth h
  rcases parseCharacterGroup_sound _ _ _ h with ⟨w, hregex, -, u, hw, -⟩
  have hlength : bracketLength regex = regex.length - rest.length := by
    unfold bracketLength
    rw [h]
  -- The scan is at the bracket; what it skips is the rest of the group.
  rw [List.append_assoc, List.cons_append] at hw
  rw [hw, List.cons_append] at hregex
  rw [hregex, List.length_cons, List.length_append] at hlength
  rw [hregex, closesUnopened, if_neg (by decide), if_neg (by decide), if_pos rfl, hlength]
  rw [show ∀ n m : Nat, n + m + 1 - m - 1 = n from fun n m => by omega]
  exact closesUnopened_skip _ _ _

/-- A match that does not start with a parenthesis. -/
theorem parseMatchItem_keepsScan {regex rest : List Byte} {item : MatchItem} {c : Byte}
    (hc : c ≠ byte '(' ∧ c ≠ byte ')') (h : parseMatchItem (c :: regex) = .ok ⟨item, rest⟩)
    (depth : Nat) : closesUnopened 0 depth (c :: regex) = closesUnopened 0 depth rest := by
  unfold parseMatchItem at h
  simp only at h
  split at h
  -- A dot.
  · next hdot =>
      cases h
      have hplain : Plain [c] := Plain.cons (by rw [hdot]; decide) plain_nil
      exact closesUnopened_plain hplain _ depth
  · split at h
    · next characterClass rest' hclass =>
        cases h
        -- Of the character classes only the group is skipped; the escapes are plain.
        rcases parseMatchCharacterClass_cases hclass with
          ⟨g, -, hgroup⟩ | ⟨e, -, hescape⟩ | ⟨u, -, hcategory⟩
        · exact parseCharacterGroup_keepsScan _ _ _ depth hgroup
        · exact parseCharacterClass_sound.keepsScan (fun _ _ h => h.plain) _ _ _ depth hescape
        · exact parseUnicodeCategory_sound.keepsScan (fun _ _ h => h.plain) _ _ _ depth hcategory
    · next classError hclass =>
        split at h
        · next character rest' hchar =>
            cases h
            unfold parseMatchCharacter at hchar
            rw [if_neg (List.cons_ne_nil c regex)] at hchar
            -- The first byte may be a bracket, the others are continuation bytes.
            rcases parseChar_rest hchar with ⟨w, hregex, hw⟩
            rw [hregex, closesUnopened, if_neg hc.1, if_neg hc.2]
            by_cases hbracket : c = byte '['
            · -- A bracket that starts no group is one byte long.
              have hone : bracketLength (c :: (w ++ rest)) = 1 := by
                unfold bracketLength
                split
                · next g rest'' hgroup =>
                    rw [← hregex] at hgroup
                    unfold parseMatchCharacterClass at hclass
                    rw [if_neg (List.cons_ne_nil c regex), hgroup] at hclass
                    cases hclass
                · rfl
              rw [if_pos hbracket, hone]
              exact closesUnopened_plain hw rest depth
            · rw [if_neg hbracket]
              exact closesUnopened_plain hw rest depth
        · cases h

theorem parseMatch_keepsScan {regex rest : List Byte} {m : Match} {c : Byte}
    (hc : c ≠ byte '(' ∧ c ≠ byte ')') (h : parseMatch (c :: regex) = .ok ⟨m, rest⟩)
    (depth : Nat) : closesUnopened 0 depth (c :: regex) = closesUnopened 0 depth rest := by
  unfold parseMatch at h
  rw [if_neg (List.cons_ne_nil c regex)] at h
  rcases bind_eq_ok.mp h with ⟨⟨item, afterItem⟩, hitem, h⟩
  have hkeeps := parseMatchItem_keepsScan hc hitem depth
  simp only at h
  split at h
  · cases h
    exact hkeeps
  · split at h
    · cases h
      exact hkeeps
    · next quantifier afterQuantifier hquantifier =>
        cases h
        exact hkeeps.trans (parseQuantifier_keepsScan _ _ _ depth hquantifier)

end Leaves

section Trees

variable {parseExpression : List Byte → Except ParseFailure (ParseValue Expression)}
  (hexpression : KeepsScan parseExpression)
include hexpression

/-- The parenthesis that a group opens is the one it closes. -/
theorem parseGroup_keepsScan : KeepsScan (parseGroup parseExpression) := by
  intro regex group rest depth h
  unfold parseGroup at h
  split at h
  · cases h
  · next c afterFirst =>
      split at h
      · cases h
      · next hc =>
          rw [not_not.mp hc, closesUnopened_opening]
          -- The mark of a group that does not capture is passed over.
          have hmodifier : closesUnopened 0 (depth + 1) afterFirst =
              closesUnopened 0 (depth + 1)
                (if [byte '?', byte ':'].isPrefixOf afterFirst = true then afterFirst.drop 2
                  else afterFirst) := by
            split
            · next hprefixed =>
                rcases List.isPrefixOf_iff_prefix.mp hprefixed with ⟨inner, rfl⟩
                exact closesUnopened_plain
                  (Plain.cons (by decide) (Plain.cons (by decide) plain_nil)) inner (depth + 1)
            · rfl
          rw [hmodifier]
          rcases bind_eq_ok.mp h with ⟨⟨expression, afterExpression⟩, hparse, h⟩
          -- The expression leaves one more parenthesis open, which is closed behind it.
          rw [hexpression _ _ _ (depth + 1) hparse]
          simp only at h
          split at h
          · cases h
          · next hclose =>
              rw [eq_cons_of_head? (not_not.mp hclose), closesUnopened_closing]
              split at h
              · cases h
                rfl
              · next quantifier afterQuantifier hquantifier =>
                  cases h
                  exact parseQuantifier_keepsScan _ _ _ depth hquantifier

theorem parseSubExpressionItem_keepsScan : KeepsScan (parseSubExpressionItem parseExpression) := by
  intro regex item rest depth h
  have hanchor : KeepsScan parseAnchor := parseAnchor_sound.keepsScan fun _ _ h => h.plain
  unfold parseSubExpressionItem at h
  split at h
  · cases h
  · next c afterFirst =>
      split at h
      · cases h
      · next hstop =>
          split at h
          · rcases bind_eq_ok.mp h with ⟨⟨group, afterGroup⟩, hgroup, h⟩
            cases h
            exact parseGroup_keepsScan hexpression _ _ _ depth hgroup
          · next hopen =>
              have hc : c ≠ byte '(' ∧ c ≠ byte ')' := ⟨hopen, fun hclose => hstop (Or.inr hclose)⟩
              -- Behind a backslash there is an anchor, a backreference, or a match.
              split at h
              · split at h
                · next anchor rest' hparse =>
                    cases h
                    exact hanchor _ _ _ depth hparse
                · split at h
                  · next number rest' hnumber =>
                      cases h
                      exact parseBackreference_sound.keepsScan (fun _ _ h => h.plain) _ _ _ depth
                        hnumber
                  · split at h
                    · next m rest' hmatch =>
                        cases h
                        exact parseMatch_keepsScan hc hmatch depth
                    · cases h
              · split at h
                · rcases bind_eq_ok.mp h with ⟨⟨anchor, afterAnchor⟩, hparse, h⟩
                  cases h
                  exact hanchor _ _ _ depth (toTree_eq_ok.mp hparse)
                · rcases bind_eq_ok.mp h with ⟨⟨m, afterMatch⟩, hmatch, h⟩
                  cases h
                  exact parseMatch_keepsScan hc (toTree_eq_ok.mp hmatch) depth

theorem parseSubExpressionItems_keepsScan (rounds : Nat) :
    KeepsScan (parseSubExpressionItems parseExpression rounds) := by
  induction rounds with
  | zero =>
      intro regex items rest depth h
      unfold parseSubExpressionItems at h
      split at h
      · cases h
        rfl
      · cases h
  | succ rounds ih =>
      intro regex items rest depth h
      unfold parseSubExpressionItems at h
      split at h
      · cases h
        rfl
      · rcases bind_eq_ok.mp h with ⟨⟨item, afterItem⟩, hitem, h⟩
        rcases bind_eq_ok.mp h with ⟨⟨more, afterMore⟩, hmore, h⟩
        cases h
        rw [parseSubExpressionItem_keepsScan hexpression _ _ _ depth hitem]
        exact ih _ _ _ depth hmore

theorem parseSubExpression_keepsScan : KeepsScan (parseSubExpression parseExpression) := by
  intro regex subExpression rest depth h
  unfold parseSubExpression at h
  split at h
  · cases h
  · rcases bind_eq_ok.mp h with ⟨⟨item, afterItem⟩, hitem, h⟩
    rcases bind_eq_ok.mp h with ⟨⟨items, afterItems⟩, hitems, h⟩
    cases h
    rw [parseSubExpressionItem_keepsScan hexpression _ _ _ depth hitem]
    exact parseSubExpressionItems_keepsScan hexpression _ _ _ _ depth hitems

theorem parseAlternatives_keepsScan (rounds : Nat) :
    KeepsScan (parseAlternatives parseExpression rounds) := by
  induction rounds with
  | zero =>
      intro regex alternatives rest depth h
      unfold parseAlternatives at h
      split at h
      · cases h
      · cases h
        rfl
  | succ rounds ih =>
      intro regex alternatives rest depth h
      unfold parseAlternatives at h
      split at h
      · next hbar =>
          rcases bind_eq_ok.mp h with ⟨⟨alternative, afterFirst⟩, hfirst, h⟩
          rcases bind_eq_ok.mp h with ⟨⟨more, afterMore⟩, hmore, h⟩
          cases h
          have hplain : Plain [byte '|'] := Plain.cons (by decide) plain_nil
          calc closesUnopened 0 depth regex
              = closesUnopened 0 depth ([byte '|'] ++ regex.tail) := by
                conv_lhs => rw [eq_cons_of_head? hbar]
                rfl
            _ = closesUnopened 0 depth regex.tail := closesUnopened_plain hplain _ depth
            _ = closesUnopened 0 depth afterFirst :=
                parseSubExpression_keepsScan hexpression _ _ _ depth hfirst
            _ = closesUnopened 0 depth rest := ih _ _ _ depth hmore
      · cases h
        rfl

end Trees

theorem parseExpression_keepsScan (bound : Nat) : KeepsScan (parseExpression bound) := by
  induction bound with
  | zero =>
      intro regex expression rest depth h
      cases h
  | succ bound ih =>
      intro regex expression rest depth h
      unfold parseExpression at h
      split at h
      · cases h
      · rcases bind_eq_ok.mp h with ⟨⟨alternative, afterFirst⟩, hfirst, h⟩
        rcases bind_eq_ok.mp h with ⟨⟨alternatives, afterMore⟩, hmore, h⟩
        cases h
        rw [parseSubExpression_keepsScan ih _ _ _ depth hfirst]
        exact parseAlternatives_keepsScan ih _ _ _ _ depth hmore

theorem parseRegex_keepsScan : KeepsScan parseRegex := by
  intro pattern regex rest depth h
  unfold parseRegex at h
  split at h
  · cases h
  · have hcaret : closesUnopened 0 depth pattern = closesUnopened 0 depth
        (if (pattern.head? == some (byte '^')) = true then pattern.tail else pattern) := by
      split
      · next hhead =>
          conv_lhs => rw [eq_cons_of_head? (beq_iff_eq.mp hhead)]
          have hplain : Plain [byte '^'] := Plain.cons (by decide) plain_nil
          exact closesUnopened_plain hplain pattern.tail depth
      · rfl
    rcases bind_eq_ok.mp h with ⟨⟨expression, afterExpression⟩, hparse, h⟩
    cases h
    rw [hcaret]
    exact parseExpression_keepsScan _ _ _ _ depth hparse

/-- The parser takes all of a pattern that it accepts, unless the scan finds a
    parenthesis that nothing opened. -/
theorem parseRegex_rest_nil_iff {pattern rest : List Byte} {regex : Regex}
    (h : parseRegex pattern = .ok ⟨regex, rest⟩) :
    rest = [] ↔ closesUnopened 0 0 pattern = false := by
  rw [parseRegex_keepsScan _ _ _ 0 h]
  rcases (parseRegex_spells h).2 with hrest | hrest
  · rw [hrest]
    exact iff_of_true rfl rfl
  · -- The parenthesis in front of the rest has none that it closes.
    have hfound : closesUnopened 0 0 (byte ')' :: rest.tail) = true := by
      rw [closesUnopened, if_neg (by decide), if_pos rfl]
      rfl
    rw [eq_cons_of_head? hrest, hfound]
    exact iff_of_false (List.cons_ne_nil _ _) (by decide)

/-- A pattern that is compiled is compiled whole, unless it has a closing
    parenthesis, outside the bracket groups, that no parenthesis before it
    opened; what comes from there on is ignored. -/
theorem compileRegex_consumedWhole_iff {pattern : List Byte} {matcher : Matcher}
    (h : compileRegex pattern = .ok (some matcher)) :
    ConsumedWhole pattern ↔ closesUnopened 0 0 pattern = false := by
  by_cases hnil : pattern = []
  · subst hnil
    exact iff_of_true (Or.inl rfl) rfl
  unfold compileRegex at h
  rw [if_neg hnil] at h
  cases hparse : parseRegex pattern with
  | error failure =>
      simp only [hparse, pure_eq_ok] at h
      cases h
  | ok value =>
      rcases value with ⟨regex, rest⟩
      rw [← parseRegex_rest_nil_iff hparse]
      constructor
      · rintro (hempty | ⟨regex', hwhole⟩)
        · exact absurd hempty hnil
        · rw [hparse] at hwhole
          cases hwhole
          rfl
      · rintro rfl
        exact Or.inr ⟨regex, hparse⟩

theorem exists_matcher {pattern : List Byte}
    (h : ((compileRegex pattern).toOption.bind id).isSome = true) :
    ∃ matcher, compileRegex pattern = .ok (some matcher) := by
  cases hcompiled : compileRegex pattern with
  | error e =>
      rw [hcompiled] at h
      cases h
  | ok compiled =>
      rw [hcompiled] at h
      rcases Option.isSome_iff_exists.mp h with ⟨matcher, hmatcher⟩
      exact ⟨matcher, congrArg Except.ok hmatcher⟩

/-- `(a)` is compiled whole. -/
theorem compileRegex_consumedWhole_iff_group :
    ∃ matcher, compileRegex [byte '(', byte 'a', byte ')'] = .ok (some matcher) ∧
      (ConsumedWhole [byte '(', byte 'a', byte ')'] ↔
        closesUnopened 0 0 [byte '(', byte 'a', byte ')'] = false) := by
  have h : ∃ matcher, compileRegex [byte '(', byte 'a', byte ')'] = .ok (some matcher) :=
    exists_matcher (by decide +kernel)
  rcases h with ⟨matcher, hmatcher⟩
  exact ⟨matcher, hmatcher, compileRegex_consumedWhole_iff hmatcher⟩

/-- `a)b` is compiled to the matcher of `a`. -/
theorem compileRegex_not_consumedWhole :
    ¬ ∀ (pattern : List Byte) (matcher : Matcher),
      compileRegex pattern = .ok (some matcher) → ConsumedWhole pattern := by
  intro hall
  have h : ∃ matcher, compileRegex [byte 'a', byte ')', byte 'b'] = .ok (some matcher) :=
    exists_matcher (by decide +kernel)
  rcases h with ⟨matcher, hmatcher⟩
  rcases hall _ _ hmatcher with hnil | ⟨regex, hwhole⟩
  · exact absurd hnil (by decide)
  · have hrest : (parseRegex [byte 'a', byte ')', byte 'b']).map (·.remainingRegex)
        = .ok [byte ')', byte 'b'] := by
      decide
    rw [hwhole] at hrest
    cases hrest

end Grep

end CodingChallenges
