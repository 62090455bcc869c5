import CodingChallenges.Library.Delimiter
import CodingChallenges.Library.Utf8
import CodingChallenges.Grep.Repetition
import CodingChallenges.Grep.Tool

/-!
# Searching Fixed Strings

A pattern without metacharacters is found exactly where its characters occur.

The parser turns such a pattern into a row of characters: at every step the
first byte of what is left starts a character that none of the special cases
asks for, and the character decoded is the one that was encoded. The meaning of
the row is that its code points are a prefix of the input behind the start
position.

The automaton of the row has no dot and no unicode category. The search of such
an automaton stays inside the input, throws nothing, and has a result exactly if
the pattern means something at the start position (`matchOneFrom_means`). No
match of the row is empty, so the scan misses none.

## Main definitions

* `metacharacters`: The characters with a meaning of their own.
* `literalRegex`: The tree of a pattern without them.

## Theorems

* `parseRegex_literal`: What the parser makes of such a pattern.
* `meaning_literal`: Where its tree matches.
* `matchOneFrom_means`: Searching an automaton without dots.
* `compileRegex_fixedString`: From the pattern's bytes to the matches in a line.
-/

namespace CodingChallenges

namespace Grep

section Searches

/-- The condition reads no character without looking, and asks for no unicode
    category. -/
def TransitionConditionType.Careful (condition : TransitionConditionType) : Prop :=
  condition.NoUnicode ∧ condition ≠ .matchAnyCharacter

variable {regex : Regex} {element : NfaElement} {nfa : Nfa} {input : List Nat}
  (hbuild : (buildRegex regex).run {} = .ok (element, nfa))
  (hcareful : ∀ q, ∀ transition ∈ outgoing nfa.states q,
    transition.toState < nfa.states.length ∧ transition.condition.Careful)
include hbuild hcareful

/-- The search of an automaton without dots throws nothing. -/
theorem matchOneFrom_careful_ok {s : Nat} (hs : s ≤ input.length) :
    ∃ result, matchOneFrom (compiled element nfa) input s = .ok result := by
  have htargets : TargetsExist (compiled element nfa).states :=
    targetsExist_of_outgoing fun q transition hmem => (hcareful q transition hmem).1
  refine matchOneFrom_ok htargets hs (buildRegex_start_lt hbuild)
    (fun q transition hmem => (hcareful q transition hmem).2.1) fun c _ transition hmem hdot => ?_
  exact absurd hdot (hcareful _ transition hmem).2.2

omit hbuild in
/-- Nor does it leave the input. -/
theorem runs_inside {s n : Nat} {c : MatchState} (hs : s ≤ input.length)
    (h : Runs (Transits nfa.states input) n ⟨s, element.start, none⟩ c) :
    c.inputPosition ≤ input.length := by
  refine h.preserves (P := fun b => b.inputPosition ≤ input.length) (fun a b ha hstep => ?_) hs
  rcases hstep with ⟨state, transition, hstate, hmem, hbranch⟩
  have hout := mem_outgoing_iff.mpr ⟨state, hstate, hmem⟩
  exact ((branch_eq_ok_iff input a b transition).mp hbranch).2.2.position_le_length
    (hcareful _ transition hout).2.2 ha

variable (hback : regex.expression.Forall noBackreference)
  (hshape : regex.expression.Forall wellShaped)
include hback hshape

/-- The search of an automaton without dots has a result exactly if the pattern
    means something at the start position, and the result is the span of one of
    its meanings. -/
theorem matchOneFrom_means {s : Nat} (hs : s ≤ input.length) :
    ∃ found, matchOneFrom (compiled element nfa) input s = .ok found ∧
      (found = none → ∀ e, e ≤ input.length → ¬ regex.Meaning input s e) ∧
      (∀ result, found = some result → ∃ e captures, e ≤ input.length ∧ regex.Meaning input s e ∧
        result = acceptResult s ⟨e, element.accept, captures⟩) := by
  have htargets : TargetsExist (compiled element nfa).states :=
    targetsExist_of_outgoing fun q transition hmem => (hcareful q transition hmem).1
  rcases matchOneFrom_careful_ok hbuild hcareful hs with ⟨found, hfound⟩
  refine ⟨found, hfound, fun hnone e he hmeaning => ?_, fun result hsome => ?_⟩
  · rw [hnone] at hfound
    rcases (runs_compiled_iff hbuild hback hshape he).mpr hmeaning with ⟨n, captures, hruns⟩
    exact matchOneFrom_none htargets hs hfound ⟨rfl, hruns⟩
  · rw [hsome] at hfound
    rcases matchOneFrom_some htargets hs hfound with
      ⟨n, ⟨e, q, captures⟩, ⟨hstate, hruns⟩, hresult, -⟩
    have he : e ≤ input.length := runs_inside hcareful hs hruns
    have hq : q = element.accept := hstate
    subst hq
    exact ⟨e, captures, he, (runs_compiled_iff hbuild hback hshape he).mp ⟨n, captures, hruns⟩,
      hresult⟩

end Searches

section Parsing

/-- The characters with a meaning of their own in a pattern. -/
def metacharacters : List Char :=
  ['^', '$', '.', '[', ']', '\\', '(', ')', '|', '*', '+', '?', '{', '}']

/-- No metacharacter is the first byte. -/
def PlainHead (text : List Byte) : Prop :=
  ∀ m ∈ metacharacters, text.head? ≠ some (byte m)

/-- A text without metacharacters does not start with the byte of one. -/
theorem plainHead_utf8Encode {text : List Char} (h : ∀ c ∈ text, c ∉ metacharacters) :
    PlainHead (utf8Encode text) := by
  intro m hm
  cases text with
  | nil => exact fun hhead => by cases hhead
  | cons c text =>
      have hall : metacharacters.all (fun m => (byte m).toNat = m.toNat ∧ byte m < 0xC0)
          = true := by decide
      have hascii : ∀ m ∈ metacharacters, (byte m).toNat = m.toNat ∧ byte m < 0xC0 :=
        fun m hm => of_decide_eq_true (List.all_eq_true.mp hall m hm)
      rcases (utf8Form_encodeChar c).first with ⟨a, w, hw, ha⟩
      rw [utf8Encode_cons, hw, List.cons_append, List.head?_cons, Ne, Option.some.injEq]
      intro heq
      subst heq
      rcases ha with hsame | hlarge
      · rw [(hascii m hm).1, Char.toNat_inj] at hsame
        subst hsame
        exact h _ List.mem_cons_self hm
      · exact absurd (hascii m hm).2 (UInt8.not_lt.mpr hlarge)

theorem parseQuantifier_plain {text : List Byte} (h : PlainHead text) :
    ∃ e, parseQuantifier text = .error e := by
  cases text with
  | nil => exact ⟨_, rfl⟩
  | cons a text =>
      have hne : ∀ m ∈ metacharacters, a ≠ byte m := fun m hm heq => h m hm (by rw [heq]; rfl)
      unfold parseQuantifier
      simp only
      rw [if_neg (hne '*' (by decide)), if_neg (hne '+' (by decide)), if_neg (hne '?' (by decide)),
        if_neg (hne '{' (by decide))]
      exact ⟨_, rfl⟩

/-- Nothing but the special cases asks for a character class. -/
theorem parseMatchCharacterClass_plain {text : List Byte} (h : PlainHead text) :
    ∃ e, parseMatchCharacterClass text = .error e := by
  cases text with
  | nil => exact ⟨_, rfl⟩
  | cons a text =>
      have hne : ∀ m ∈ metacharacters, a ≠ byte m := fun m hm heq => h m hm (by rw [heq]; rfl)
      have hbackslash : a ≠ byte '\\' := hne '\\' (by decide)
      have hgroup : parseCharacterGroup (a :: text)
          = .error "Expected '[' at the beginning of character group" := by
        unfold parseCharacterGroup
        exact if_pos (hne '[' (by decide))
      have hclass : parseCharacterClass (a :: text)
          = .error "Expected '\\' at the beginning of character class" := by
        unfold parseCharacterClass
        exact if_pos hbackslash
      have hcategory : parseCharacterClassFromUnicodeCategory (a :: text)
          = .error ("Expected '\\p\x7b' at the beginning of character class from unicode " ++
            "category") := by
        unfold parseCharacterClassFromUnicodeCategory
        rw [if_neg (List.cons_ne_nil a text), if_pos]
        · rfl
        · rw [List.isPrefixOf, Bool.and_eq_true, beq_iff_eq]
          exact fun hprefixed => hbackslash hprefixed.1.symm
      unfold parseMatchCharacterClass
      rw [if_neg (List.cons_ne_nil a text), hgroup]
      simp only
      rw [hclass]
      simp only
      rw [hcategory]
      exact ⟨_, rfl⟩

theorem parseMatchItem_plain {w rest : List Byte} {x : Nat} (hform : Utf8Form w x)
    (hplain : PlainHead (w ++ rest)) :
    parseMatchItem (w ++ rest) = .ok ⟨.character x, rest⟩ := by
  have hchar := parseChar_of_form hform rest
  rcases parseMatchCharacterClass_plain hplain with ⟨classError, hclass⟩
  rcases hform.first with ⟨a, w, rfl, -⟩
  rw [List.cons_append] at hplain hchar hclass ⊢
  have hdot : a ≠ byte '.' := fun heq => hplain '.' (by decide) (by rw [heq]; rfl)
  unfold parseMatchItem
  simp only
  rw [if_neg hdot, hclass]
  simp only
  rw [parseMatchCharacter, if_neg (List.cons_ne_nil _ _), hchar]
  rfl

/-- A character that is none of the special cases is an item of its own. -/
theorem parseSubExpressionItem_plain
    {parse : List Byte → Except ParseFailure (ParseValue Expression)}
    {w rest : List Byte} {x : Nat} (hform : Utf8Form w x) (hplain : PlainHead (w ++ rest))
    (hrest : PlainHead rest) :
    parseSubExpressionItem parse (w ++ rest)
      = .ok ⟨.singleMatch { matchItem := .character x }, rest⟩ := by
  have hitem := parseMatchItem_plain hform hplain
  rcases parseQuantifier_plain hrest with ⟨quantifierError, hquantifier⟩
  rcases hform.first with ⟨a, w, rfl, -⟩
  rw [List.cons_append] at hplain hitem ⊢
  have hne : ∀ m ∈ metacharacters, a ≠ byte m := fun m hm heq => hplain m hm (by rw [heq]; rfl)
  have hmatch : parseMatch (a :: (w ++ rest)) = .ok ⟨{ matchItem := .character x }, rest⟩ := by
    unfold parseMatch
    rw [if_neg (List.cons_ne_nil _ _), hitem, ok_bind]
    simp only
    split
    · rfl
    · rw [hquantifier]
      rfl
  have hstop : ¬ (a = byte '|' ∨ a = byte ')') := by
    rintro (heq | heq)
    · exact hne '|' (by decide) heq
    · exact hne ')' (by decide) heq
  unfold parseSubExpressionItem
  simp only
  rw [if_neg hstop, if_neg (hne '(' (by decide)), if_neg (hne '\\' (by decide)),
    if_neg (hne '$' (by decide)), hmatch]
  rfl

/-- The items of a text without metacharacters. -/
def literalItems (text : List Char) : List SubExpressionItem :=
  text.map fun c => .singleMatch { matchItem := .character c.toNat }

/-- The tree of a pattern without metacharacters. -/
def literalRegex (text : List Char) : Regex :=
  { expression := .mk [.mk (literalItems text)] }

variable {parse : List Byte → Except ParseFailure (ParseValue Expression)}

theorem parseSubExpressionItem_char {c : Char} {text : List Char}
    (h : ∀ d ∈ c :: text, d ∉ metacharacters) :
    parseSubExpressionItem parse (utf8Encode (c :: text))
      = .ok ⟨.singleMatch { matchItem := .character c.toNat }, utf8Encode text⟩ := by
  have hplain := plainHead_utf8Encode h
  have hrest := plainHead_utf8Encode fun d hd => h d (List.mem_cons_of_mem c hd)
  rw [utf8Encode_cons] at hplain ⊢
  exact parseSubExpressionItem_plain (utf8Form_encodeChar c) hplain hrest

theorem endsSubExpression_plain {text : List Byte} (h : PlainHead text) (hne : text ≠ []) :
    endsSubExpression text = false := by
  unfold endsSubExpression
  have hbar := h '|' (by decide)
  have hparen := h ')' (by decide)
  simp only [Bool.or_eq_false_iff, List.isEmpty_eq_false_iff, beq_eq_false_iff_ne]
  exact ⟨⟨hne, hbar⟩, hparen⟩

/-- An encoding has at least one byte for every character. -/
theorem utf8Encode_cons_ne_nil (c : Char) (text : List Char) : utf8Encode (c :: text) ≠ [] := by
  rcases (utf8Form_encodeChar c).first with ⟨a, w, hw, -⟩
  rw [utf8Encode_cons, hw]
  exact List.cons_ne_nil _ _

theorem length_utf8Encode_cons (c : Char) (text : List Char) :
    (utf8Encode text).length < (utf8Encode (c :: text)).length := by
  rcases (utf8Form_encodeChar c).first with ⟨a, w, hw, -⟩
  rw [utf8Encode_cons, hw, List.length_append, List.length_cons]
  omega

/-- The loop over the items reads one character after another. -/
theorem parseSubExpressionItems_literal {rounds : Nat} {text : List Char}
    (h : ∀ c ∈ text, c ∉ metacharacters) (hrounds : (utf8Encode text).length ≤ rounds) :
    parseSubExpressionItems parse rounds (utf8Encode text) = .ok ⟨literalItems text, []⟩ := by
  induction rounds generalizing text with
  | zero =>
      cases text with
      | nil => rfl
      | cons c text =>
          have hlt := length_utf8Encode_cons c text
          omega
  | succ rounds ih =>
      cases text with
      | nil => rfl
      | cons c text =>
          have hends :=
            endsSubExpression_plain (plainHead_utf8Encode h) (utf8Encode_cons_ne_nil c text)
          have hlt := length_utf8Encode_cons c text
          have hrest := ih (fun d hd => h d (List.mem_cons_of_mem c hd)) (by omega)
          unfold parseSubExpressionItems
          rw [hends]
          simp only [Bool.false_eq_true, if_false]
          rw [parseSubExpressionItem_char h, ok_bind]
          simp only
          rw [hrest, ok_bind]
          rfl

/-- What the parser makes of a pattern without metacharacters. -/
theorem parseRegex_literal {text : List Char} (hne : text ≠ [])
    (h : ∀ c ∈ text, c ∉ metacharacters) :
    parseRegex (utf8Encode text) = .ok ⟨literalRegex text, []⟩ := by
  cases text with
  | nil => exact absurd rfl hne
  | cons c text =>
      have hnil := utf8Encode_cons_ne_nil c text
      have hrest := fun d hd => h d (List.mem_cons_of_mem c hd)
      have hanchor : (utf8Encode (c :: text)).head? ≠ some (byte '^') :=
        plainHead_utf8Encode h '^' (by decide)
      have hexpression :
          parseExpression ((utf8Encode (c :: text)).length + 1) (utf8Encode (c :: text)) =
            .ok ⟨.mk [.mk (literalItems (c :: text))], []⟩ := by
        unfold parseExpression
        rw [if_neg hnil, parseSubExpression, if_neg hnil, parseSubExpressionItem_char h, ok_bind]
        simp only
        rw [parseSubExpressionItems_literal hrest (Nat.le_refl _)]
        rfl
      unfold parseRegex
      rw [if_neg hnil, beq_eq_false_iff_ne.mpr hanchor]
      simp only [Bool.false_eq_true, if_false]
      rw [hexpression]
      rfl

end Parsing

section Meaning

/-- The code points of a text. -/
def codePoints (text : List Char) : List Nat :=
  text.map Char.toNat

theorem length_codePoints (text : List Char) : (codePoints text).length = text.length :=
  List.length_map _

/-- The decoder of lines decodes UTF-8. -/
theorem convertToU32String_utf8Encode (text : List Char) :
    convertToU32String (utf8Encode text) = some (codePoints text) := by
  induction text with
  | nil => rfl
  | cons c text ih =>
      have hchar := parseChar_of_form (utf8Form_encodeChar c) (utf8Encode text)
      rw [utf8Encode_cons, convertToU32String_of_parseChar hchar, ih]
      rfl

theorem reads_char_iff {input : List Nat} {x s e : Nat} :
    Reads input (.char x) s e ↔ input[s]? = some x ∧ e = s + 1 := by
  have hcondition : (MatchItem.character x).condition = .char x := rfl
  have hunicode : (MatchItem.character x).NoUnicode := trivial
  rw [← hcondition, reads_iff (MatchItem.isLeaf_condition _).1]
  cases hs : input[s]? with
  | none =>
      refine iff_of_false (fun hreads => ?_) (fun hchar => by cases hchar.1)
      rcases hreads with ⟨-, offset, hoffset, -⟩
      exact leafOffset_item_end (by simp only [ne_eq, reduceCtorEq, not_false_eq_true]) hs _ hoffset
  | some y =>
      have hle : s ≤ input.length := Nat.le_of_lt (List.getElem?_eq_some_iff.mp hs).1
      have haccepts : (MatchItem.character x).accepts y = (y == x) := rfl
      rw [leafOffset_item hunicode hs, haccepts, Option.some.injEq]
      by_cases hy : y = x
      · rw [beq_iff_eq.mpr hy, if_pos rfl]
        simp only [hle, hy, true_and, Except.ok.injEq, Option.some.injEq, exists_eq_left']
      · rw [beq_eq_false_iff_ne.mpr hy]
        simp only [hy, Bool.false_eq_true, if_false, Except.ok.injEq, reduceCtorEq, false_and,
          exists_false, and_false]

/-- Where a row of characters matches: its code points are next in the input. -/
theorem meaning_literalItems {input : List Nat} {text : List Char} {s e : Nat} :
    SubExpression.MeaningOfItems input (literalItems text) s e ↔
      e = s + text.length ∧ codePoints text <+: input.drop s := by
  induction text generalizing s with
  | nil =>
      refine ⟨fun h => ⟨?_, List.nil_prefix⟩, fun h => ?_⟩
      · have hstop : s = e := h
        rw [hstop, List.length_nil, Nat.add_zero]
      · rw [List.length_nil, Nat.add_zero] at h
        exact h.1.symm
  | cons c text ih =>
      have hitem : ∀ m, (SubExpressionItem.singleMatch { matchItem := .character c.toNat }).Meaning
          input s m ↔ input[s]? = some c.toNat ∧ m = s + 1 := fun m => reads_char_iff
      have hstep : SubExpression.MeaningOfItems input (literalItems (c :: text)) s e ↔
          input[s]? = some c.toNat ∧
            SubExpression.MeaningOfItems input (literalItems text) (s + 1) e := by
        refine ⟨fun h => ?_, fun h => ⟨s + 1, (hitem _).mpr ⟨h.1, rfl⟩, h.2⟩⟩
        rcases h with ⟨m, hread, hrest⟩
        rcases (hitem m).mp hread with ⟨hs, rfl⟩
        exact ⟨hs, hrest⟩
      have hcodes : codePoints (c :: text) = c.toNat :: codePoints text := rfl
      rw [hstep, ih, hcodes, List.length_cons]
      cases hs : input[s]? with
      | none =>
          rw [List.drop_eq_nil_of_le (List.getElem?_eq_none_iff.mp hs), List.prefix_nil]
          refine iff_of_false (fun h => by cases h.1) (fun h => by cases h.2)
      | some y =>
          rcases List.getElem?_eq_some_iff.mp hs with ⟨hlt, rfl⟩
          rw [List.drop_eq_getElem_cons hlt, List.cons_prefix_cons, Option.some.injEq]
          refine ⟨fun h => ⟨by omega, h.1.symm, h.2.2⟩, fun h => ⟨h.2.1.symm, by omega, h.2.2⟩⟩

/-- A predicate that holds of characters holds all over a row of them. -/
theorem forallItems_literalItems {N : NodePredicate} (h : ∀ x, N.onMatchItem (.character x))
    (text : List Char) : SubExpression.ForallItems N (literalItems text) := by
  induction text with
  | nil => exact trivial
  | cons c text ih => exact ⟨⟨h c.toNat, trivial⟩, ih⟩

theorem forall_literalRegex {N : NodePredicate} (h : ∀ x, N.onMatchItem (.character x))
    (text : List Char) : (literalRegex text).expression.Forall N :=
  ⟨forallItems_literalItems h text, trivial⟩

theorem meaning_literalRegex {input : List Nat} {text : List Char} {s e : Nat} :
    (literalRegex text).Meaning input s e ↔
      e = s + text.length ∧ codePoints text <+: input.drop s := by
  rw [← meaning_literalItems]
  refine ⟨fun h => ?_, fun h => ⟨fun hanchor => absurd hanchor Bool.false_ne_true, Or.inl h⟩⟩
  rcases h.2 with hitems | hnone
  · exact hitems
  · exact absurd hnone id

end Meaning

/-- The only leaves are characters. -/
def charactersOnly : NodePredicate :=
  { onMatchItem := fun item => ∃ x, item = .character x
    onAnchor := fun _ => False
    onBackreference := fun _ => False }

theorem charactersOnly_implies :
    charactersOnly.Implies (fun c => c.Careful ∧ ¬ c.IsCapture) := by
  have hepsilon : TransitionConditionType.epsilon ≠ .matchAnyCharacter := by
    simp only [ne_eq, reduceCtorEq, not_false_eq_true]
  have hstart : TransitionConditionType.startOfStringAnchor ≠ .matchAnyCharacter := by
    simp only [ne_eq, reduceCtorEq, not_false_eq_true]
  refine ⟨⟨⟨trivial, hepsilon⟩, id⟩, ⟨⟨trivial, hstart⟩, id⟩, fun item hitem => ?_,
    fun _ h => absurd h id, fun _ h => absurd h id⟩
  rcases hitem with ⟨x, rfl⟩
  refine ⟨⟨trivial, ?_⟩, id⟩
  simp only [MatchItem.condition, ne_eq, reduceCtorEq, not_false_eq_true]

section Occurrences

variable {pattern line : List Char}

theorem codePoints_prefix_iff {s : Nat} :
    codePoints pattern <+: (codePoints line).drop s ↔ pattern <+: line.drop s := by
  unfold codePoints
  rw [← List.map_drop]
  exact List.prefix_map_iff_of_injective fun _ _ h => Char.toNat_inj.mp h

/-- A text that is not empty occurs where it is a prefix of what is left, and
    that is before the end. -/
theorem infix_iff_drop (hne : pattern ≠ []) :
    pattern <:+: line ↔ ∃ s, s < line.length ∧ pattern <+: line.drop s := by
  rw [Delimiter.isInfix_iff_drop]
  constructor
  · rintro ⟨s, -, hprefixed⟩
    have hlen := hprefixed.length_le
    have hpos := List.length_pos_of_ne_nil hne
    rw [List.length_drop] at hlen
    exact ⟨s, by omega, hprefixed⟩
  · rintro ⟨s, hs, hprefixed⟩
    exact ⟨s, Nat.le_of_lt hs, hprefixed⟩

/-- The span of an occurrence. -/
theorem span_of_prefix {s : Nat} (h : pattern <+: line.drop s) :
    (line.take (s + pattern.length)).drop s = pattern := by
  rw [List.drop_take, Nat.add_sub_cancel_left]
  exact (List.prefix_iff_eq_take.mp h).symm

end Occurrences

/-- The whole match, which is the first range of a result. -/
def MatchResult.wholeMatch (result : MatchResult) : Option Range :=
  result.groupRanges.head?

section Literal

variable {pattern : List Char} {element : NfaElement} {nfa : Nfa}
  (hbuild : (buildRegex (literalRegex pattern)).run {} = .ok (element, nfa))
include hbuild

/-- The search for a text from a position in a line: its occurrence there, or
    nothing. -/
theorem matchOneFrom_literal {line : List Char} {s : Nat} (hs : s ≤ line.length) :
    ∃ found, matchOneFrom (compiled element nfa) (codePoints line) s = .ok found ∧
      (found = none → ¬ pattern <+: line.drop s) ∧
      (∀ result, found = some result → pattern <+: line.drop s ∧
        result.wholeMatch = some ⟨0, some s, some (s + pattern.length)⟩) := by
  have hback := forall_literalRegex (N := noBackreference) (fun _ => trivial) pattern
  have hshape := forall_literalRegex (N := wellShaped) (fun _ => trivial) pattern
  have hchars := forall_literalRegex (N := charactersOnly) (fun x => ⟨x, rfl⟩) pattern
  -- The automaton has no dot and no category, since the tree has only characters.
  have hcareful := buildRegex_conditions hbuild charactersOnly_implies
    (fun _ => by
      refine ⟨⟨trivial, ?_⟩, ⟨trivial, ?_⟩⟩
      all_goals simp only [ne_eq, reduceCtorEq, not_false_eq_true]) hchars
  have hle : s ≤ (codePoints line).length := by
    rw [length_codePoints]
    exact hs
  rcases matchOneFrom_means hbuild hcareful hback hshape hle with ⟨found, hfound, hnone, hsome⟩
  refine ⟨found, hfound, fun h hprefixed => ?_, fun result h => ?_⟩
  · have hend : s + pattern.length ≤ (codePoints line).length := by
      have hlen := hprefixed.length_le
      rw [List.length_drop] at hlen
      rw [length_codePoints]
      omega
    exact hnone h _ hend (meaning_literalRegex.mpr ⟨rfl, codePoints_prefix_iff.mpr hprefixed⟩)
  · rcases hsome result h with ⟨e, captures, -, hmeaning, rfl⟩
    rcases meaning_literalRegex.mp hmeaning with ⟨rfl, hprefixed⟩
    exact ⟨codePoints_prefix_iff.mp hprefixed, rfl⟩

theorem matchesFrom_literal_iff {line : List Char} {s : Nat} (hs : s ≤ line.length) :
    (compiled element nfa).MatchesFrom (codePoints line) s ↔ pattern <+: line.drop s := by
  rcases matchOneFrom_literal hbuild hs with ⟨found, hfound, hnone, hsome⟩
  refine ⟨fun h => ?_, fun hprefixed => ?_⟩
  · rcases h with ⟨result, hresult⟩
    rw [hfound, Except.ok.injEq] at hresult
    exact (hsome result hresult).1
  · cases found with
    | none => exact absurd hprefixed (hnone rfl)
    | some result => exact ⟨result, hfound⟩

end Literal

/-- Fixed strings end to end: for every text without metacharacters that is not
    empty, its encoding is compiled, every encoded line is decoded, and the scan
    of the line has results exactly if the text occurs in it; every whole match
    is the span of an occurrence. -/
theorem compileRegex_fixedString (pattern line : List Char) (hne : pattern ≠ [])
    (hplain : ∀ c ∈ pattern, c ∉ metacharacters) :
    ∃ matcher, compileRegex (utf8Encode pattern) = .ok (some matcher) ∧
      convertToU32String (utf8Encode line) = some (codePoints line) ∧
      ∃ results, regexMatch (some matcher) (codePoints line) = .ok (some results) ∧
        (results ≠ [] ↔ pattern <:+: line) ∧
        ∀ result ∈ results, ∃ s e, result.wholeMatch = some ⟨0, some s, some e⟩ ∧
          s ≤ e ∧ e ≤ line.length ∧ (line.take e).drop s = pattern := by
  have hparse := parseRegex_literal hne hplain
  rcases parseRegex_builds hparse with ⟨element, nfa, hbuild⟩
  have hnil : utf8Encode pattern ≠ [] := by
    cases pattern with
    | nil => exact absurd rfl hne
    | cons c text => exact utf8Encode_cons_ne_nil c text
  have hcompile : compileRegex (utf8Encode pattern) = .ok (some (compiled element nfa)) := by
    rw [compileRegex, if_neg hnil, hparse]
    simp only
    rw [hbuild]
    rfl
  -- A literal pattern has no transition that throws inside the line.
  have hok : ∀ s, s ≤ (codePoints line).length →
      ∃ found, matchOneFrom (compiled element nfa) (codePoints line) s = .ok found := by
    intro s hs
    rw [length_codePoints] at hs
    rcases matchOneFrom_literal hbuild hs with ⟨found, hfound, -⟩
    exact ⟨found, hfound⟩
  rcases matchAll_ne_nil_iff hok with ⟨results, hresults, hne_iff⟩
  refine ⟨_, hcompile, convertToU32String_utf8Encode line, results, ?_, ?_, fun result hmem => ?_⟩
  · rw [regexMatch, hresults, ok_bind]
    rfl
  · rw [hne_iff, infix_iff_drop hne, length_codePoints]
    -- There is a match exactly where the pattern stands in the line.
    refine ⟨fun h => ?_, fun h => ?_⟩
    · rcases h with ⟨s, hs, hmatches⟩
      have hle : s ≤ line.length := by omega
      have hprefixed := (matchesFrom_literal_iff hbuild hle).mp hmatches
      have hlen := hprefixed.length_le
      have hpos := List.length_pos_of_ne_nil hne
      rw [List.length_drop] at hlen
      exact ⟨s, by omega, hprefixed⟩
    · rcases h with ⟨s, hs, hprefixed⟩
      exact ⟨s, Or.inl hs, (matchesFrom_literal_iff hbuild (Nat.le_of_lt hs)).mpr hprefixed⟩
  · rcases mem_matchAllLoop hresults hmem with ⟨s, -, hs, hone⟩
    rw [length_codePoints] at hs
    have hle : s ≤ line.length := by omega
    rcases matchOneFrom_literal hbuild hle with ⟨found, hfound, -, hsome⟩
    rw [hfound, Except.ok.injEq] at hone
    rcases hsome result hone with ⟨hprefixed, hwhole⟩
    have hlen := hprefixed.length_le
    rw [List.length_drop] at hlen
    exact ⟨s, _, hwhole, Nat.le_add_right _ _, by omega, span_of_prefix hprefixed⟩

theorem compileRegex_fixedString_accented :
    ∃ matcher, compileRegex (utf8Encode ['é', 'a']) = .ok (some matcher) ∧
      convertToU32String (utf8Encode ['b', 'é', 'a']) = some (codePoints ['b', 'é', 'a']) ∧
      ∃ results, regexMatch (some matcher) (codePoints ['b', 'é', 'a']) = .ok (some results) ∧
        (results ≠ [] ↔ ['é', 'a'] <:+: ['b', 'é', 'a']) ∧
        ∀ result ∈ results, ∃ s e, result.wholeMatch = some ⟨0, some s, some e⟩ ∧
          s ≤ e ∧ e ≤ ['b', 'é', 'a'].length ∧ (['b', 'é', 'a'].take e).drop s = ['é', 'a'] :=
  compileRegex_fixedString ['é', 'a'] ['b', 'é', 'a'] (List.cons_ne_nil _ _)
    (List.forall_mem_cons.mpr ⟨by decide, List.forall_mem_singleton.mpr (by decide)⟩)

end Grep

end CodingChallenges
