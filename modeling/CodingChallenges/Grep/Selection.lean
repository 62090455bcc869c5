import CodingChallenges.Grep.Captures
import CodingChallenges.Grep.PrintParse

/-!
# Which Lines Are Selected

What the tool does with a line, in terms of the meaning of the pattern.

The scan looks for a match at every position in front of the end of the line, and at the first
one if the line is empty. So a line is selected if the pattern means something from one of these
positions, whatever else there is in the line. Nothing is asked of the searches but that the scan
has come to its end: where it has, all of them have, up to the first one with a result.

Two patterns with a bar between them select what one of them selects. A leading anchor is not
part of the first of the two; it is the anchor of both.

## Main definitions

* `Regex.Selects`: The pattern means something where the scan looks.
* `Regex.Wants`: The line is to be printed.
* `Regex.union`: Two patterns with a bar between them.

## Theorems

* `matchAll_ne_nil_iff_selects`: What the scan finds.
* `selectsLine_iff_wants`: Which lines are printed.
* `grep_union`: What two patterns with a bar between them select.
-/

namespace CodingChallenges

namespace Grep

/-- The pattern means something from a position at which the scan looks for it. -/
def Regex.Selects (regex : Regex) (line : List Nat) : Prop :=
  ∃ s e, (s < line.length ∨ s = 0) ∧ e ≤ line.length ∧ regex.Meaning line s e

/-- A line as it is searched. -/
def searchedLine (ignoreCase : Bool) (line : List Byte) : List Byte :=
  if ignoreCase then line.map toLower else line

/-- The line can be decoded, and it is selected, or not if the selection is inverted. -/
def Regex.Wants (regex : Regex) (isInverted ignoreCase : Bool) (line : List Byte) : Prop :=
  ∃ u32Line, convertToU32String (searchedLine ignoreCase line) = some u32Line ∧
    (regex.Selects u32Line ↔ isInverted = false)

/-- Quantifiers that are in order are well shaped. -/
theorem ordered_stronger_wellShaped : ordered.Stronger wellShaped :=
  ⟨fun _ _ => trivial, fun _ _ => trivial, fun _ _ => trivial, fun _ hquantifier => hquantifier⟩

section Scans

variable {pattern rest : List Byte} {regex : Regex} {element : NfaElement} {nfa : Nfa}
  (hparse : parseRegex pattern = .ok ⟨regex, rest⟩)
  (hback : regex.expression.Forall noBackreference)
  (hbuild : (buildRegex regex).run {} = .ok (element, nfa)) {input : List Nat}
include hbuild

/-- What is accepted lies inside the input: the last step was tried there, and did not move. -/
theorem accepts_inside {s n : Nat} {c : MatchState} (hs : s ≤ input.length)
    (h : (compiled element nfa).Accepts input s n c) : c.inputPosition ≤ input.length := by
  rcases h with ⟨haccept, hruns⟩
  rcases n with - | n
  · rw [Runs.zero_iff] at hruns
    rw [← hruns]
    exact hs
  · rcases hruns.unsnoc with ⟨b, -, hlast⟩
    have hb : b = configuration (b.currentStateId, (b.inputPosition, b.groupRanges)) := rfl
    have hc : c = configuration (c.currentStateId, (c.inputPosition, c.groupRanges)) := rfl
    rw [hb, hc, transits_configuration_iff] at hlast
    have hexit := compiled_exit hbuild input hlast.2 haccept
    simp only [Prod.mk.injEq] at hexit
    rw [hexit.1]
    exact hlast.1

include hparse hback

theorem accepts_iff_meaning {s : Nat} (hs : s ≤ input.length) :
    (∃ n c, (compiled element nfa).Accepts input s n c) ↔
      ∃ e, e ≤ input.length ∧ regex.Meaning input s e := by
  have hshape := Expression.forall_imp ordered_stronger_wellShaped _ (parseRegex_ordered hparse).2
  constructor
  · rintro ⟨n, ⟨e, q, captures⟩, haccepts⟩
    have he : e ≤ input.length := accepts_inside hbuild hs haccepts
    rcases haccepts with ⟨hq, hruns⟩
    have hq : q = element.accept := hq
    subst hq
    exact ⟨e, he, (runs_compiled_iff hbuild hback hshape he).mp ⟨n, captures, hruns⟩⟩
  · rintro ⟨e, he, hmeaning⟩
    rcases (runs_compiled_iff hbuild hback hshape he).mpr hmeaning with ⟨n, captures, hruns⟩
    exact ⟨n, _, rfl, hruns⟩

/-- A scan that comes to its end has results if the pattern means something where it looks, and
    only then. -/
theorem matchAll_ne_nil_iff_selects {results : List MatchResult}
    (h : matchAll (compiled element nfa) input = .ok results) :
    results ≠ [] ↔ regex.Selects input := by
  have htargets : TargetsExist (compiled element nfa).states :=
    parseRegex_targetsExist hparse hbuild
  constructor
  · intro hne
    rcases List.exists_mem_of_ne_nil results hne with ⟨result, hmem⟩
    rcases mem_matchAllLoop h hmem with ⟨s, -, hs, hone⟩
    have hle : s ≤ input.length := by omega
    rcases matchOneFrom_some htargets hle hone with ⟨n, c, haccepts, -⟩
    rcases (accepts_iff_meaning hparse hback hbuild hle).mp ⟨n, c, haccepts⟩ with
      ⟨e, he, hmeaning⟩
    exact ⟨s, e, hs, he, hmeaning⟩
  · rintro ⟨s, e, hs, he, hmeaning⟩ rfl
    have hle : s ≤ input.length := by omega
    -- Without a result all positions have been searched, and this one would have had one.
    have hnone := matchAllLoop_nil (Nat.zero_le _) (by omega) h (Nat.zero_le s) hs
    rcases (accepts_iff_meaning hparse hback hbuild hle).mpr ⟨e, he, hmeaning⟩ with
      ⟨n, c, haccepts⟩
    exact matchOneFrom_none htargets hle hnone haccepts

/-- The line is printed where it is wanted. -/
theorem selectsLine_iff_wants {isInverted ignoreCase selected : Bool} {line : List Byte}
    (h : selectsLine (some (compiled element nfa)) isInverted ignoreCase line = .ok selected) :
    selected = true ↔ regex.Wants isInverted ignoreCase line := by
  unfold selectsLine at h
  simp only at h
  unfold Regex.Wants searchedLine
  cases hdecode : convertToU32String (if ignoreCase then line.map toLower else line) with
  | none =>
      rw [hdecode] at h
      cases h
      simp only [Bool.false_eq_true, reduceCtorEq, false_and, exists_const]
  | some u32Line =>
      rw [hdecode] at h
      simp only [regexMatch, bind_assoc] at h
      rcases bind_eq_ok.mp h with ⟨results, hresults, h⟩
      have hselects := matchAll_ne_nil_iff_selects hparse hback hbuild hresults
      cases h
      simp only [Option.some.injEq, exists_eq_left', ← hselects]
      cases isInverted <;> cases results <;> simp

end Scans

section Programs

variable {pattern rest line : List Byte} {regex : Regex} {isInverted ignoreCase selected : Bool}

/-- A pattern that can be parsed is compiled, and what is compiled is its automaton. -/
theorem compileRegex_of_parse {matcher : RegexMatcher}
    (hparse : parseRegex pattern = .ok ⟨regex, rest⟩) (h : compileRegex pattern = .ok matcher) :
    ∃ element nfa, (buildRegex regex).run {} = .ok (element, nfa) ∧
      matcher = some (compiled element nfa) := by
  have hne : pattern ≠ [] := by
    rintro rfl
    cases hparse
  rw [compileRegex, if_neg hne, hparse] at h
  rcases bind_eq_ok.mp h with ⟨⟨element, nfa⟩, hbuild, h⟩
  cases h
  exact ⟨element, nfa, hbuild, rfl⟩

theorem grep_iff_wants (hparse : parseRegex (patternOf ignoreCase pattern) = .ok ⟨regex, rest⟩)
    (hback : regex.expression.Forall noBackreference)
    (h : grep isInverted ignoreCase pattern line = .ok selected) :
    selected = true ↔ regex.Wants isInverted ignoreCase line := by
  rcases bind_eq_ok.mp h with ⟨compiledRegex, hcompile, h⟩
  rcases compileRegex_of_parse hparse hcompile with ⟨element, nfa, hbuild, rfl⟩
  exact selectsLine_iff_wants hparse hback hbuild h

end Programs

section Union

/-- The alternatives of one expression and those of another. -/
def Expression.union : Expression → Expression → Expression
  | .mk alternatives, .mk alternatives' => .mk (alternatives ++ alternatives')

variable {e e' : Expression} {input : List Nat}

theorem meaningOfAlternatives_append (alternatives alternatives' : List SubExpression)
    (s t : Nat) :
    Expression.MeaningOfAlternatives input (alternatives ++ alternatives') s t ↔
      Expression.MeaningOfAlternatives input alternatives s t ∨
        Expression.MeaningOfAlternatives input alternatives' s t := by
  induction alternatives with
  | nil => simp only [List.nil_append, Expression.MeaningOfAlternatives, false_or]
  | cons alternative alternatives ih =>
      rw [List.cons_append]
      simp only [Expression.MeaningOfAlternatives, ih, or_assoc]

theorem Regex.selects_union (anchor : Bool) (e e' : Expression) :
    (Regex.mk anchor (e.union e')).Selects input ↔
      (Regex.mk anchor e).Selects input ∨ (Regex.mk anchor e').Selects input := by
  rcases e with ⟨alternatives⟩
  rcases e' with ⟨alternatives'⟩
  simp only [Regex.Selects, Regex.Meaning, Expression.union, Expression.Meaning,
    meaningOfAlternatives_append, and_or_left, exists_or]

theorem forallAlternatives_append {P : NodePredicate}
    {alternatives alternatives' : List SubExpression}
    (h : Expression.ForallAlternatives P alternatives)
    (h' : Expression.ForallAlternatives P alternatives') :
    Expression.ForallAlternatives P (alternatives ++ alternatives') := by
  induction alternatives with
  | nil => exact h'
  | cons alternative alternatives ih => exact ⟨h.1, ih h.2⟩

theorem Expression.Forall.union {P : NodePredicate} (h : e.Forall P) (h' : e'.Forall P) :
    (e.union e').Forall P := by
  rcases e with ⟨alternatives⟩
  rcases e' with ⟨alternatives'⟩
  exact forallAlternatives_append h h'

theorem printableAlternatives_append {alternatives alternatives' : List SubExpression}
    (h : Expression.PrintableAlternatives alternatives)
    (h' : Expression.PrintableAlternatives alternatives') :
    Expression.PrintableAlternatives (alternatives ++ alternatives') := by
  induction alternatives with
  | nil => exact h'
  | cons alternative alternatives ih => exact ⟨h.1, ih h.2⟩

theorem Expression.Printable.union (h : e.Printable) (h' : e'.Printable) :
    (e.union e').Printable := by
  rcases e with ⟨alternatives⟩
  rcases e' with ⟨alternatives'⟩
  exact ⟨List.append_ne_nil_of_left_ne_nil h.1 _, printableAlternatives_append h.2 h'.2⟩

theorem spellingOfAlternatives_append (alternatives alternatives' : List SubExpression) :
    Expression.spellingOfAlternatives (alternatives ++ alternatives') =
      Expression.spellingOfAlternatives alternatives ++
        Expression.spellingOfAlternatives alternatives' := by
  induction alternatives with
  | nil => rfl
  | cons alternative alternatives ih =>
      simp only [List.cons_append, Expression.spellingOfAlternatives, ↓Char.isValue, ih,
        List.append_assoc]

/-- The bar stands between the two. -/
theorem spelling_union (h : e.Printable) (h' : e'.Printable) :
    (e.union e').spelling = e.spelling ++ byte '|' :: e'.spelling := by
  rcases e with ⟨- | ⟨first, alternatives⟩⟩
  · exact absurd rfl h.1
  rcases e' with ⟨- | ⟨first', alternatives'⟩⟩
  · exact absurd rfl h'.1
  simp only [Expression.union, List.cons_append, Expression.spelling, spellingOfAlternatives_append,
    Expression.spellingOfAlternatives, ↓Char.isValue, List.append_assoc]

/-- A pattern is read back up to what ends it. -/
theorem parseRegex_up_to (anchor : Bool) (h : e.Printable) {rest : List Byte}
    (hends : endsSubExpression rest = true) (hbar : rest.head? ≠ some (byte '|')) :
    parseRegex ((Regex.mk anchor e).spelling ++ rest) = .ok ⟨Regex.mk anchor e, rest⟩ := by
  rcases headAvoids_expression h rest with ⟨havoids, hne⟩
  have hread := parseExpression_spelling e ((e.spelling ++ rest).length + 1) rest h
    (by rw [List.length_append]; omega) hends hbar
  cases anchor with
  | true =>
      simp only [Regex.spelling, if_true, List.cons_append, List.nil_append]
      unfold parseRegex
      rw [if_neg (List.cons_ne_nil _ _)]
      simp only [List.head?_cons, beq_self_eq_true, if_true, List.tail_cons, hread, ok_bind]
      rfl
  | false =>
      have hcaret : ((e.spelling ++ rest).head? == some (byte '^')) = false :=
        beq_eq_false_iff_ne.mpr (havoids '^' (by decide))
      simp only [Regex.spelling, Bool.false_eq_true, if_false, List.nil_append]
      unfold parseRegex
      rw [if_neg (List.append_ne_nil_of_left_ne_nil hne rest)]
      simp only [hcaret, Bool.false_eq_true, if_false, hread, ok_bind]
      rfl

/-- What is printed for a pattern is what its meaning says. -/
theorem grep_printable {anchor isInverted selected : Bool} {line : List Byte} (h : e.Printable)
    (hback : e.Forall noBackreference)
    (hgrep : grep isInverted false (Regex.mk anchor e).spelling line = .ok selected) :
    selected = true ↔ (Regex.mk anchor e).Wants isInverted false line := by
  have hparse := @parseRegex_up_to e anchor h [] rfl (fun heq => by cases heq)
  rw [List.append_nil] at hparse
  exact grep_iff_wants hparse hback hgrep

/-- A pattern with a bar selects what one of its two sides selects, with the anchor of the
    pattern in front of either, and an inverted selection has what both sides leave out. -/
theorem grep_union {anchor isInverted selected selected' both : Bool} {line : List Byte}
    (h : e.Printable) (h' : e'.Printable) (hback : e.Forall noBackreference)
    (hback' : e'.Forall noBackreference)
    (hgrep : grep isInverted false (Regex.mk anchor e).spelling line = .ok selected)
    (hgrep' : grep isInverted false (Regex.mk anchor e').spelling line = .ok selected')
    (hboth : grep isInverted false ((Regex.mk anchor e).spelling ++ byte '|' :: e'.spelling) line =
      .ok both) :
    both = if isInverted then selected && selected' else selected || selected' := by
  have hspelling : (Regex.mk anchor e).spelling ++ byte '|' :: e'.spelling =
      (Regex.mk anchor (e.union e')).spelling := by
    simp only [Regex.spelling, ↓Char.isValue, List.append_assoc, spelling_union h h']
  rw [hspelling] at hboth
  have hone := grep_printable h hback hgrep
  have hother := grep_printable h' hback' hgrep'
  have hunion := grep_printable (h.union h') (hback.union hback') hboth
  unfold Regex.Wants at hone hother hunion
  cases hdecode : convertToU32String (searchedLine false line) with
  | none =>
      simp only [hdecode, reduceCtorEq, false_and, exists_false, iff_false, Bool.not_eq_true]
        at hone hother hunion
      rw [hone, hother, hunion]
      cases isInverted <;> rfl
  | some u32Line =>
      simp only [hdecode, Option.some.injEq, exists_eq_left', Regex.selects_union]
        at hone hother hunion
      cases isInverted with
      | false =>
          simp only [iff_true] at hone hother hunion
          rw [Bool.eq_iff_iff, if_neg Bool.false_ne_true, Bool.or_eq_true, hunion, hone, hother]
      | true =>
          simp only [Bool.true_eq_false, iff_false, not_or] at hone hother hunion
          rw [Bool.eq_iff_iff, if_pos rfl, Bool.and_eq_true, hunion, hone, hother]

/-- An expression with one letter. -/
def letter (c : Char) : Expression :=
  .mk [.mk [.singleMatch { matchItem := .character (codePoint c) }]]

theorem printable_letter {c : Char} (h : ScalarOtherThan metacharacters (codePoint c)) :
    (letter c).Printable :=
  ⟨List.cons_ne_nil _ _, ⟨List.cons_ne_nil _ _, ⟨h, trivial⟩, trivial, trivial⟩, trivial⟩

/-- A line with the second of two letters is selected by the two with a bar between them. -/
theorem grep_union_letters :
    grep false false [byte 'a', byte '|', byte 'b'] [byte 'x', byte 'b'] = .ok true := by
  have ha : ScalarOtherThan metacharacters (codePoint 'a') := by decide
  have hb : ScalarOtherThan metacharacters (codePoint 'b') := by decide
  have hforall : ∀ c, (letter c).Forall noBackreference :=
    fun c => ⟨⟨⟨trivial, trivial⟩, trivial⟩, trivial⟩
  cases hboth : grep false false [byte 'a', byte '|', byte 'b'] [byte 'x', byte 'b'] with
  | error e => cases hboth
  | ok both =>
      have hunion := @grep_union (letter 'a') (letter 'b') false false false true both
        [byte 'x', byte 'b'] (printable_letter ha) (printable_letter hb) (hforall 'a')
        (hforall 'b') rfl rfl hboth
      rw [hunion]
      rfl

end Union

end Grep

end CodingChallenges
