import CodingChallenges.Grep.LowerCase

/-!
# Ignoring Case

When a search that ignores case finds what the plain search finds.

To ignore case, the tool lower-cases the text of the pattern and the line. If no
escape of the pattern changes with its letter, the automaton of the lower-cased
pattern is that of the pattern with the letters of its conditions lower-cased
(`parseRegex_lower`, `buildRegex_relabel`). Whatever such a condition reads in a
line, the lower-cased one reads in the lower-cased line, and nothing else of a
transition changes, so every run on the line is a run on the lower-cased line
(`transits_lower`, `runs_lower`).

What is left is that the scan of the lower-cased line may throw where the plain
one does not. It makes more searches come further, and a search that steps past
the end of the line throws.

## Main definitions

* `TransitionConditionType.KeepsCase`: What the leaves turn into.
* `Matcher.relabel`: The matcher of the lower-cased pattern.
* `OnlyLettersChange`: Lower-casing changes letters to be matched and nothing else.
* `ScanStaysInside`: The scan that ignores case stays inside the line.

## Theorems

* `processTransition_lower`, `transits_lower`: One transition.
* `runs_lower`: A whole run.
* `matchAll_lower_iff`: A scan.
* `grep_ignoreCase_iff`: When a selected line is selected ignoring case.
-/

namespace CodingChallenges

namespace Grep

/-- The condition is not that of a bracket group or of a unicode category. -/
def TransitionConditionType.NoClass : TransitionConditionType → Prop
  | .characterGroup _ => False
  | .unicodeCategoryName _ => False
  | .characterRange _ => False
  | _ => True

/-- The condition is not that of an escape that changes with its letter. -/
def TransitionConditionType.KeepsEscape : TransitionConditionType → Prop
  | .characterClass c => c.type.KeepsCase
  | .anchor a => a.type.KeepsCase
  | _ => True

/-- The condition keeps its meaning when the pattern is lower-cased. -/
def TransitionConditionType.KeepsCase (condition : TransitionConditionType) : Prop :=
  condition.NoClass ∧ condition.KeepsEscape

theorem noClasses_implies : noClasses.Implies (fun c => c.NoClass ∧ ¬ c.IsCapture) := by
  refine ⟨⟨trivial, id⟩, ⟨trivial, id⟩, fun item hitem => ?_, fun _ _ => ⟨trivial, id⟩,
    fun _ _ => ⟨trivial, id⟩⟩
  refine ⟨?_, item.isLeaf_condition.1.not_isCapture⟩
  rcases item with _ | (_ | _ | _) | _
  · exact trivial
  · exact absurd hitem id
  · exact trivial
  · exact absurd hitem id
  · exact trivial

theorem keepsCase_implies : keepsCase.Implies (fun c => c.KeepsEscape ∧ ¬ c.IsCapture) := by
  refine ⟨⟨trivial, id⟩, ⟨trivial, id⟩, fun item hitem => ?_, fun _ ha => ⟨ha, id⟩,
    fun _ _ => ⟨trivial, id⟩⟩
  refine ⟨?_, item.isLeaf_condition.1.not_isCapture⟩
  rcases item with _ | (_ | _ | _) | _
  · exact trivial
  · exact trivial
  · exact hitem
  · exact trivial
  · exact trivial

/-- Lower-cased, it still asks for no unicode category. -/
theorem TransitionConditionType.NoClass.noUnicode {condition : TransitionConditionType}
    (h : condition.NoClass) : condition.lower.NoUnicode := by
  cases condition with
  | characterGroup g => exact absurd h id
  | unicodeCategoryName n => exact absurd h id
  | _ => exact trivial

section Characters

/-- A capital letter moves up, and every other code point stays. -/
theorem lowerCodePoint_cases (x : Nat) :
    (65 ≤ x ∧ x ≤ 90 ∧ lowerCodePoint x = x + 32) ∨
      (¬ (65 ≤ x ∧ x ≤ 90) ∧ lowerCodePoint x = x) := by
  have hlow : codePoint 'A' = 65 := rfl
  have hhigh : codePoint 'Z' = 90 := rfl
  unfold lowerCodePoint
  rw [hlow, hhigh]
  by_cases h : 65 ≤ x ∧ x ≤ 90
  · exact Or.inl ⟨h.1, h.2, if_pos h⟩
  · exact Or.inr ⟨h, if_neg h⟩

/-- Lower-casing yields no code point but letters that was not there before. -/
theorem lowerCodePoint_eq_iff {x y : Nat} (h : y < 65 ∨ 122 < y) :
    lowerCodePoint x = y ↔ x = y := by
  rcases lowerCodePoint_cases x with ⟨hge, hle, hlower⟩ | ⟨-, hsame⟩
  · omega
  · rw [hsame]

theorem isDigit_lower (x : Nat) : isDigit (lowerCodePoint x) = isDigit x := by
  rw [Bool.eq_iff_iff]
  unfold isDigit
  have hzero : codePoint '0' = 48 := rfl
  have hnine : codePoint '9' = 57 := rfl
  simp only [Bool.and_eq_true, decide_eq_true_eq, hzero, hnine]
  rcases lowerCodePoint_cases x with ⟨hge, hle, hlower⟩ | ⟨-, hsame⟩
  · omega
  · rw [hsame]

theorem isWord_lower (x : Nat) : isWord (lowerCodePoint x) = isWord x := by
  rw [Bool.eq_iff_iff]
  unfold isWord
  rw [isDigit_lower]
  have hnumbers : codePoint 'a' = 97 ∧ codePoint 'z' = 122 ∧ codePoint 'A' = 65 ∧
      codePoint 'Z' = 90 ∧ codePoint '_' = 95 := ⟨rfl, rfl, rfl, rfl, rfl⟩
  simp only [Bool.or_eq_true, Bool.and_eq_true, decide_eq_true_eq, beq_iff_eq, hnumbers]
  rcases lowerCodePoint_cases x with ⟨hge, hle, hlower⟩ | ⟨-, hsame⟩
  · refine iff_of_true (Or.inl (Or.inl (Or.inl ?_))) (Or.inl (Or.inl (Or.inr ⟨hge, hle⟩)))
    omega
  · rw [hsame]

theorem isWhitespace_lower (x : Nat) : isWhitespace (lowerCodePoint x) = isWhitespace x := by
  rw [Bool.eq_iff_iff]
  unfold isWhitespace
  have hnumbers : codePoint ' ' = 32 ∧ codePoint '\t' = 9 ∧ codePoint '\n' = 10 ∧
      codePoint '\r' = 13 := ⟨rfl, rfl, rfl, rfl⟩
  simp only [Bool.or_eq_true, beq_iff_eq, hnumbers]
  rcases lowerCodePoint_cases x with ⟨hge, hle, hlower⟩ | ⟨-, hsame⟩
  · omega
  · rw [hsame]

/-- The classes spelled with a small letter do not tell the cases apart. -/
theorem test_lower {type : CharacterClassType} (h : type.KeepsCase) (x : Nat) :
    type.test (lowerCodePoint x) = type.test x := by
  cases type with
  | anyWord => exact isWord_lower x
  | anyDecimalDigit => exact isDigit_lower x
  | anyWhitespace => exact isWhitespace_lower x
  | _ => exact absurd h id

end Characters

section Lines

/-- The code points of a lower-cased line. -/
def lowerLine (line : List Nat) : List Nat :=
  line.map lowerCodePoint

variable {line : List Nat}

@[simp] theorem length_lowerLine (line : List Nat) : (lowerLine line).length = line.length :=
  List.length_map _

theorem getElem?_lowerLine (text : List Nat) (i : Nat) :
    (lowerLine text)[i]? = text[i]?.map lowerCodePoint :=
  List.getElem?_map

theorem newline_lowerLine (text : List Nat) (i : Nat) :
    (lowerLine text)[i]? = some (codePoint '\n') ↔ text[i]? = some (codePoint '\n') := by
  rw [getElem?_lowerLine]
  cases text[i]? with
  | none => exact Iff.rfl
  | some x =>
      rw [Option.map_some, Option.some.injEq, Option.some.injEq]
      exact lowerCodePoint_eq_iff (Or.inl (by decide))

/-- The anchors that keep their meaning hold at the same positions. One of them
    becomes another one, which differs from it only in front of a newline. -/
theorem anchor_lower {a : Anchor} {text : List Nat} (h : a.type.KeepsCase)
    (hnewline : codePoint '\n' ∉ text) {position : Nat} (htest : a.type.test text position = true) :
    a.lower.type.test (lowerLine text) position = true := by
  rcases a with ⟨type⟩
  cases type with
  | nonWordBoundary => exact absurd h id
  | startOfStringOnly => exact absurd h id
  | previousMatchEnd => exact absurd h id
  | wordBoundary =>
      have hprevious : (if 0 < position then (lowerLine text)[position - 1]? else none)
          = (if 0 < position then text[position - 1]? else none).map lowerCodePoint := by
        rw [getElem?_lowerLine]
        split <;> rfl
      simp only [Anchor.lower, AnchorType.test] at htest ⊢
      rw [hprevious, getElem?_lowerLine]
      generalize (if 0 < position then text[position - 1]? else none) = previous at htest ⊢
      generalize text[position]? = next at htest ⊢
      cases previous <;> cases next <;>
        simp only [Option.map_none, Option.map_some, isWord_lower] at htest ⊢ <;> exact htest
  | endOfStringOnlyNotNewline =>
      simp only [Anchor.lower, AnchorType.test, length_lowerLine] at htest ⊢
      exact htest
  | endOfStringOnly =>
      simp only [Anchor.lower, AnchorType.test, length_lowerLine, Bool.or_eq_true,
        Bool.and_eq_true, beq_iff_eq] at htest ⊢
      rcases htest with hend | ⟨-, hlast⟩
      · exact hend
      · exact absurd (List.mem_of_getElem? hlast) hnewline
  | endOfString =>
      simp only [Anchor.lower, AnchorType.test, length_lowerLine, Bool.or_eq_true,
        beq_iff_eq] at htest ⊢
      rw [newline_lowerLine]
      exact htest

/-- A test that holds of the lower-cased character holds of the next character of
    the lower-cased line. -/
theorem processOneCharacter_lower {toStateId : Nat} {test : Nat → Bool} (test' : Nat → Bool)
    (htest : ∀ x, test x = true → test' (lowerCodePoint x) = true) {rest : List Nat}
    {result : TransitionResult}
    (h : processOneCharacter toStateId test rest false = some result) :
    processOneCharacter toStateId test' (lowerLine rest) false = some result := by
  cases rest with
  | nil => cases h
  | cons x rest =>
      unfold processOneCharacter at h
      simp only [Bool.xor_false] at h
      split at h
      · next hx =>
          cases h
          unfold lowerLine processOneCharacter
          simp only [List.map_cons, Bool.xor_false]
          rw [if_pos (htest x hx)]
      · cases h

/-- What a backreference reads is lower-cased with the line. -/
theorem processBackreference_lower {c : MatchState} {toStateId backreference : Nat}
    {rest : List Nat} {result : TransitionResult}
    (h : processBackreferenceTransition line c toStateId backreference rest = some result) :
    processBackreferenceTransition (lowerLine line) c toStateId backreference (lowerLine rest)
      = some result := by
  unfold processBackreferenceTransition at h ⊢
  cases hranges : c.groupRanges with
  | none =>
      rw [hranges] at h
      cases h
  | some groupRanges =>
      rw [hranges] at h
      simp only at h ⊢
      split at h
      · next fromPosition toPosition hfind =>
          have hview : ((lowerLine line).drop fromPosition).take (toPosition - fromPosition)
              = lowerLine ((line.drop fromPosition).take (toPosition - fromPosition)) := by
            unfold lowerLine
            rw [List.map_take, List.map_drop]
          split at h
          · next hprefixed =>
              rw [List.isPrefixOf_iff_prefix] at hprefixed
              rw [hview, length_lowerLine, if_pos]
              · exact h
              · rw [List.isPrefixOf_iff_prefix]
                exact hprefixed.map lowerCodePoint
          · cases h
      · cases h

/-- What a transition does on a line, the lower-cased one does on the lower-cased
    line. -/
theorem processTransition_lower {condition : TransitionConditionType} (h : condition.KeepsCase)
    (hnewline : codePoint '\n' ∉ line) {c next : MatchState} {t : Nat} {rest : List Nat}
    {result : TransitionResult}
    (hstep : processTransition line c t condition rest false = .ok (some result, next)) :
    processTransition (lowerLine line) c t condition.lower (lowerLine rest) false
      = .ok (some result, next) := by
  cases condition with
  | epsilon => exact hstep
  | matchAnyCharacter => exact hstep
  | startOfStringAnchor => exact hstep
  | groupCaptureStart g => exact hstep
  | groupCaptureEnd g => exact hstep
  | characterGroup g => exact absurd h.1 id
  | unicodeCategoryName n => exact absurd h.1 id
  | characterRange r => exact absurd h.1 id
  -- The character is compared after lower-casing, and was equal before.
  | char x =>
      simp only [processTransition, pure_eq_ok, Except.ok.injEq, Prod.mk.injEq] at hstep
      have hread := processOneCharacter_lower (fun y => y == lowerCodePoint x)
        (fun y hy => by rw [beq_iff_eq.mp hy, beq_iff_eq]) hstep.1
      rw [TransitionConditionType.lower, processTransition, processCharTransition, hread, hstep.2]
      rfl
  | characterClass cls =>
      simp only [processTransition, pure_eq_ok, Except.ok.injEq, Prod.mk.injEq] at hstep
      have hread := processOneCharacter_lower cls.type.test
        (fun y hy => by rw [test_lower h.2, hy]) hstep.1
      have hcondition : (TransitionConditionType.characterClass cls).lower = .characterClass cls :=
        rfl
      rw [hcondition, processTransition, processCharacterClassTransition, hread, hstep.2]
      rfl
  | anchor a =>
      simp only [processTransition, processAnchorTransition, pure_eq_ok, Except.ok.injEq,
        Prod.mk.injEq] at hstep
      rcases hstep with ⟨htest, rfl⟩
      split at htest
      · next hholds =>
          cases htest
          simp only [TransitionConditionType.lower, processTransition, processAnchorTransition]
          rw [if_pos (anchor_lower h.2 hnewline hholds)]
          rfl
      · cases htest
  | backreference b =>
      simp only [processTransition, pure_eq_ok, Except.ok.injEq, Prod.mk.injEq] at hstep
      have hcondition : (TransitionConditionType.backreference b).lower = .backreference b := rfl
      rw [hcondition, processTransition, processBackreference_lower hstep.1, hstep.2]
      rfl

theorem branch_lower {transition : Transition} (h : transition.condition.KeepsCase)
    (hnewline : codePoint '\n' ∉ line) {c c' : MatchState}
    (hbranch : branch line c transition = .ok (some c')) :
    branch (lowerLine line) c (transition.relabel lowering) = .ok (some c') := by
  unfold branch substr at hbranch ⊢
  rw [length_lowerLine]
  split at hbranch
  · next hle =>
      rw [pure_eq_ok, ok_bind] at hbranch
      rcases bind_eq_ok.mp hbranch with ⟨⟨_ | result, next⟩, hstep, hnext⟩
      · cases hnext
      · have hlower := processTransition_lower h hnewline hstep
        have hdrop :
            (lowerLine line).drop c.inputPosition = lowerLine (line.drop c.inputPosition) :=
          List.map_drop.symm
        have hcondition : (transition.relabel lowering).condition = transition.condition.lower :=
          rfl
        have htarget : (transition.relabel lowering).toState = transition.toState := rfl
        rw [if_pos hle, pure_eq_ok, ok_bind, hdrop, hcondition, htarget, hlower, ok_bind]
        exact hnext
  · cases hbranch

end Lines

section Runs

variable {line : List Nat} {states : List State} (hnewline : codePoint '\n' ∉ line)
  (hcase : ∀ q, ∀ transition ∈ outgoing states q, transition.condition.KeepsCase)
include hnewline hcase

/-- A step on the line is one of the relabelled automaton on the lower-cased
    line. -/
theorem transits_lower {c c' : MatchState} (h : Transits states line c c') :
    Transits (relabelStates lowering states) (lowerLine line) c c' := by
  rcases h with ⟨state, transition, hstate, hmem, hbranch⟩
  refine ⟨state.relabel lowering, transition.relabel lowering, ?_, ?_, ?_⟩
  · rw [relabelStates, List.getElem?_map, hstate]
    rfl
  · exact List.mem_map_of_mem hmem
  · exact branch_lower (hcase _ transition (mem_outgoing_iff.mpr ⟨state, hstate, hmem⟩)) hnewline
      hbranch

/-- So is a run. -/
theorem runs_lower {n : Nat} {c c' : MatchState} (h : Runs (Transits states line) n c c') :
    Runs (Transits (relabelStates lowering states) (lowerLine line)) n c c' :=
  h.mono fun _ _ hstep => transits_lower hnewline hcase hstep

end Runs

section Scans

/-- The matcher with its conditions lower-cased. -/
def Matcher.lower (matcher : Matcher) : Matcher :=
  { matcher with states := relabelStates lowering matcher.states }

/-- A transition of the lower-cased automaton is one of the automaton,
    lower-cased. -/
theorem mem_outgoing_lower {states : List State} {q : Nat} {transition : Transition}
    (h : transition ∈ outgoing (relabelStates lowering states) q) :
    ∃ original ∈ outgoing states q, transition = original.relabel lowering := by
  rcases mem_outgoing_iff.mp h with ⟨state, hstate, hmem⟩
  rw [relabelStates, List.getElem?_map, Option.map_eq_some_iff] at hstate
  rcases hstate with ⟨original, horiginal, rfl⟩
  rcases List.mem_map.mp hmem with ⟨t, ht, rfl⟩
  exact ⟨t, mem_outgoing_iff.mpr ⟨original, horiginal, ht⟩, rfl⟩

variable {matcher : Matcher} {line : List Nat}

/-- The scan comes to no position past the end. -/
theorem Matcher.TriesFrom.le {i s : Nat} (h : matcher.TriesFrom line i s) (hi : i ≤ line.length) :
    s ≤ line.length := by
  induction h with
  | first => exact hi
  | next _ _ hlt _ => exact Nat.le_of_lt hlt

/-- A scan of the line that has results: the scan of the lower-cased line with
    the lower-cased automaton has results as well, unless it runs past the
    end. -/
theorem matchAll_lower_iff (hnewline : codePoint '\n' ∉ line)
    (hstart : matcher.regexNfaElement.start < matcher.states.length)
    (houtgoing : ∀ q, ∀ transition ∈ outgoing matcher.states q,
      transition.toState < matcher.states.length ∧ transition.condition.KeepsCase)
    {results : List MatchResult} (hresults : matchAll matcher line = .ok results)
    (hne : results ≠ []) :
    (∃ results, matchAll matcher.lower (lowerLine line) = .ok results ∧ results ≠ []) ↔
      ∀ s, matcher.lower.TriesFrom (lowerLine line) 0 s →
        ¬ matcher.lower.Outruns (lowerLine line) s := by
  have htargets : TargetsExist matcher.states :=
    targetsExist_of_outgoing fun q transition hmem => (houtgoing q transition hmem).1
  -- Lower-casing keeps the shape of the automaton, so the same facts hold of both.
  have hlower : ∀ q, ∀ transition ∈ outgoing matcher.lower.states q,
      transition.toState < matcher.lower.states.length ∧ transition.condition.NoUnicode := by
    intro q transition hmem
    rcases mem_outgoing_lower hmem with ⟨original, horiginal, rfl⟩
    refine ⟨?_, (houtgoing q original horiginal).2.1.noUnicode⟩
    rw [Matcher.lower, length_relabelStates]
    exact (houtgoing q original horiginal).1
  have htargets' : TargetsExist matcher.lower.states :=
    targetsExist_of_outgoing fun q transition hmem => (hlower q transition hmem).1
  have hstart' : matcher.lower.regexNfaElement.start < matcher.lower.states.length := by
    rw [Matcher.lower, length_relabelStates]
    exact hstart
  have hok : ∀ s, matcher.lower.TriesFrom (lowerLine line) 0 s →
      ((∃ found, matchOneFrom matcher.lower (lowerLine line) s = .ok found) ↔
        ¬ matcher.lower.Outruns (lowerLine line) s) :=
    fun s htries => matchOneFrom_ok_iff htargets' (htries.le (Nat.zero_le _)) hstart'
      fun q transition hmem => (hlower q transition hmem).2
  -- The scan succeeds exactly if every search it tries does.
  have hscan : (∃ results, matchAll matcher.lower (lowerLine line) = .ok results) ↔ _ :=
    matchAllLoop_ok_iff (Nat.zero_le _) (by omega)
  refine ⟨fun h s htries => ?_, fun h => ?_⟩
  · rcases h with ⟨results', hresults', -⟩
    exact (hok s htries).mp (hscan.mp ⟨results', hresults'⟩ s htries)
  · rcases hscan.mpr fun s htries => (hok s htries).mpr (h s htries) with ⟨results', hresults'⟩
    refine ⟨results', hresults', fun hnil => ?_⟩
    subst hnil
    rcases List.exists_mem_of_ne_nil results hne with ⟨result, hmem⟩
    rcases mem_matchAllLoop hresults hmem with ⟨s, -, hs, hone⟩
    have hle : s ≤ line.length := by omega
    rcases matchOneFrom_some htargets hle hone with ⟨n, c, ⟨haccept, hruns⟩, -, -⟩
    -- The run that was found is one of the lower-cased automaton.
    have hruns' :=
      runs_lower hnewline (fun q transition hmem => (houtgoing q transition hmem).2) hruns
    have hnone := matchAllLoop_nil (Nat.zero_le _) (by omega) hresults' (Nat.zero_le s)
      (by rw [length_lowerLine]; exact hs)
    refine matchOneFrom_none htargets' ?_ hnone ⟨haccept, hruns'⟩
    rw [length_lowerLine]
    exact hle

end Scans

section Tool

/-- An ASCII line decodes to its bytes. -/
theorem convertToU32String_ascii {line : List Byte} (h : ∀ b ∈ line, b ≤ 0x7F) :
    convertToU32String line = some (line.map UInt8.toNat) := by
  induction line with
  | nil => rfl
  | cons b line ih =>
      have hb := h b List.mem_cons_self
      have hrest := ih fun c hc => h c (List.mem_cons_of_mem b hc)
      conv_lhs => unfold convertToU32String
      rw [if_pos hb, hrest]
      rfl

theorem map_toNat_toLower (line : List Byte) :
    (line.map toLower).map UInt8.toNat = lowerLine (line.map UInt8.toNat) := by
  unfold lowerLine
  rw [List.map_map, List.map_map]
  exact List.map_congr_left fun b _ => toNat_toLower b

/-- Lower-casing the pattern changes the letters it matches and nothing else: no
    escape changes with its letter, and the lower-cased text is accepted and has
    no bracket group and no unicode category, nor a capital letter in a form that
    lower-casing does not see. -/
def OnlyLettersChange (pattern : List Byte) : Prop :=
  ∀ regex rest, parseRegex pattern = .ok ⟨regex, rest⟩ →
    regex.expression.Forall keepsCase ∧
      ∃ regex' rest', parseRegex (pattern.map toLower) = .ok ⟨regex', rest'⟩ ∧
        regex'.expression.Forall lowered

/-- The scan that ignores case expands no configuration past the end of the
    line. -/
def ScanStaysInside (pattern line : List Byte) : Prop :=
  ∀ matcher, compileRegex (pattern.map toLower) = .ok (some matcher) →
    ∀ s, matcher.TriesFrom ((line.map toLower).map UInt8.toNat) 0 s →
      ¬ matcher.Outruns ((line.map toLower).map UInt8.toNat) s

/-- A line is selected if the scan of its code points has results. -/
theorem selectsLine_ascii_iff {matcher : Matcher} {ignoreCase : Bool} {line : List Byte}
    (h : ∀ b ∈ patternOf ignoreCase line, b ≤ 0x7F) :
    selectsLine (some matcher) false ignoreCase line = .ok true ↔
      ∃ results, matchAll matcher ((patternOf ignoreCase line).map UInt8.toNat) = .ok results ∧
        results ≠ [] := by
  unfold selectsLine
  have hline : (if ignoreCase = true then line.map toLower else line) = patternOf ignoreCase line :=
    rfl
  simp only
  rw [hline, convertToU32String_ascii h]
  simp only [regexMatch]
  cases hscan : matchAll matcher ((patternOf ignoreCase line).map UInt8.toNat) with
  | error e =>
      refine iff_of_false (fun h => by cases h) (fun h => ?_)
      rcases h with ⟨results, hresults, -⟩
      cases hresults
  | ok results =>
      cases results with
      | nil =>
          refine iff_of_false (fun h => by cases h) (fun h => ?_)
          rcases h with ⟨results, hresults, hne⟩
          cases hresults
          exact hne rfl
      | cons first rest => exact iff_of_true rfl ⟨_, rfl, List.cons_ne_nil first rest⟩

/-- What is compiled, and what its lower-cased pattern is compiled to: the same
    automaton, lower-cased. -/
theorem compileRegex_lower {pattern : List Byte} {matcher : Matcher}
    (hclasses : ∀ regex rest, parseRegex pattern = .ok ⟨regex, rest⟩ →
      regex.expression.Forall noClasses)
    (hletters : OnlyLettersChange pattern) (h : compileRegex pattern = .ok (some matcher)) :
    compileRegex (pattern.map toLower) = .ok (some matcher.lower) ∧
      matcher.regexNfaElement.start < matcher.states.length ∧
      ∀ q, ∀ transition ∈ outgoing matcher.states q,
        transition.toState < matcher.states.length ∧ transition.condition.KeepsCase := by
  by_cases hnil : pattern = []
  · -- The empty pattern is compiled to one state without transitions.
    subst hnil
    cases h
    refine ⟨rfl, Nat.one_pos, fun q transition hmem => ?_⟩
    rcases mem_outgoing_iff.mp hmem with ⟨state, hstate, hmem⟩
    have hempty := List.mem_of_getElem? hstate
    rw [List.mem_singleton] at hempty
    subst hempty
    exact absurd hmem List.not_mem_nil
  · unfold compileRegex at h ⊢
    rw [if_neg hnil] at h
    rw [if_neg (mt List.map_eq_nil_iff.mp hnil)]
    cases hparse : parseRegex pattern with
    | error e =>
        rw [hparse] at h
        cases h
    | ok v =>
        rcases v with ⟨regex, rest⟩
        rw [hparse] at h
        rcases bind_eq_ok.mp h with ⟨⟨element, nfa⟩, hbuild, h⟩
        cases h
        have hno := hclasses regex rest hparse
        rcases hletters regex rest hparse with ⟨hkeeps, regex', rest', hparse', hlowered⟩
        rcases parseRegex_lower hparse hparse' hno hkeeps hlowered with ⟨rfl, -⟩
        have hcapture : ∀ g, (TransitionConditionType.groupCaptureStart g).NoClass ∧
            (TransitionConditionType.groupCaptureEnd g).NoClass := fun _ => ⟨trivial, trivial⟩
        have hcapture' : ∀ g, (TransitionConditionType.groupCaptureStart g).KeepsEscape ∧
            (TransitionConditionType.groupCaptureEnd g).KeepsEscape := fun _ => ⟨trivial, trivial⟩
        -- What holds of the conditions in the tree holds of those in the automaton.
        have hconditions := buildRegex_conditions hbuild noClasses_implies hcapture hno
        have hescapes := buildRegex_conditions hbuild keepsCase_implies hcapture' hkeeps
        refine ⟨?_, buildRegex_start_lt hbuild, fun q transition hmem => ?_⟩
        · rw [hparse']
          simp only
          rw [buildRegex_relabel hbuild]
          rfl
        · exact ⟨(hconditions q transition hmem).1, (hconditions q transition hmem).2,
            (hescapes q transition hmem).2⟩

/-- A byte that is ASCII is ASCII lower-cased. -/
theorem ascii_toLower {line : List Byte} (h : ∀ b ∈ line, b ≤ 0x7F) :
    ∀ b ∈ line.map toLower, b ≤ 0x7F := by
  intro b hb
  rcases List.mem_map.mp hb with ⟨c, hc, rfl⟩
  exact toLower_le_ascii (h c hc)

end Tool

/-- A line that is selected is selected ignoring case exactly if that scan stays
    inside the line, for every pattern without bracket groups and unicode
    categories of which lower-casing changes only letters to be matched, and
    every ASCII line. -/
theorem grep_ignoreCase_iff (pattern line : List Byte)
    (hclasses : ∀ regex rest, parseRegex pattern = .ok ⟨regex, rest⟩ →
      regex.expression.Forall noClasses)
    (hascii : ∀ b ∈ line, b ≤ 0x7F) (hnewline : byte '\n' ∉ line)
    (hletters : OnlyLettersChange pattern) (hselects : grep false false pattern line = .ok true) :
    grep false true pattern line = .ok true ↔ ScanStaysInside pattern line := by
  unfold grep at hselects ⊢
  have hpattern : patternOf false pattern = pattern := rfl
  have hpattern' : patternOf true pattern = pattern.map toLower := rfl
  rw [hpattern] at hselects
  rw [hpattern']
  rcases bind_eq_ok.mp hselects with ⟨compiled, hcompiled, hselects⟩
  cases compiled with
  | none => cases hselects
  | some matcher =>
      rcases compileRegex_lower hclasses hletters hcompiled with ⟨hlower, hstart, houtgoing⟩
      rw [hlower, ok_bind]
      simp only at hselects ⊢
      -- An ASCII line is its own list of code points, with and without its capital letters.
      have hcodes : codePoint '\n' ∉ line.map UInt8.toNat := by
        intro hmem
        rcases List.mem_map.mp hmem with ⟨b, hb, heq⟩
        have hsame : b = byte '\n' := UInt8.toNat_inj.mp heq
        exact hnewline (hsame ▸ hb)
      have hplain : ∀ b ∈ patternOf false line, b ≤ 0x7F := hascii
      have hlowered : ∀ b ∈ patternOf true line, b ≤ 0x7F := ascii_toLower hascii
      rcases (selectsLine_ascii_iff hplain).mp hselects with ⟨results, hresults, hne⟩
      have hline : patternOf false line = line := rfl
      have hline' : patternOf true line = line.map toLower := rfl
      rw [hline] at hresults
      rw [selectsLine_ascii_iff hlowered, hline', map_toNat_toLower,
        matchAll_lower_iff hcodes hstart houtgoing hresults hne]
      unfold ScanStaysInside
      rw [hlower, map_toNat_toLower]
      refine ⟨fun h m hm => ?_, fun h => h matcher.lower rfl⟩
      cases hm
      exact h

/-- The capital letter on itself: the lower-cased scan finds it too. -/
theorem grep_ignoreCase_iff_capital : ScanStaysInside [byte 'A'] [byte 'A'] := by
  have hparse : parseRegex [byte 'A'] = .ok ⟨⟨false, .mk [.mk [.singleMatch
      ⟨.character (codePoint 'A'), none⟩]]⟩, []⟩ := rfl
  have hparse' : parseRegex ([byte 'A'].map toLower) = .ok ⟨⟨false, .mk [.mk [.singleMatch
      ⟨.character (codePoint 'a'), none⟩]]⟩, []⟩ := rfl
  refine (grep_ignoreCase_iff [byte 'A'] [byte 'A'] (fun regex rest h => ?_)
    (List.forall_mem_singleton.mpr (by decide)) (by decide) (fun regex rest h => ?_) rfl).mp rfl
  · rw [hparse] at h
    cases h
    exact ⟨⟨⟨trivial, trivial⟩, trivial⟩, trivial⟩
  · rw [hparse] at h
    cases h
    have hlow : lowerCodePoint (codePoint 'a') = codePoint 'a' := rfl
    exact ⟨⟨⟨⟨trivial, trivial⟩, trivial⟩, trivial⟩, _, _, hparse',
      ⟨⟨⟨hlow, trivial⟩, trivial⟩, trivial⟩⟩

/-- Lower-casing turns the class of all but digits into the class of digits, and
    a letter is selected by the one only. -/
theorem grep_ignoreCase_misses_class :
    ¬ ∀ pattern line : List Byte,
      (∀ regex rest, parseRegex pattern = .ok ⟨regex, rest⟩ →
        regex.expression.Forall noClasses) →
      (∀ b ∈ line, b ≤ 0x7F) → grep false false pattern line = .ok true →
      grep false true pattern line = .ok true := by
  intro h
  have hparse : parseRegex [byte '\\', byte 'D'] = .ok ⟨⟨false, .mk [.mk [.singleMatch
      ⟨.characterClass (.characterClass ⟨.anyDecimalDigitInverted⟩),
      none⟩]]⟩, []⟩ := rfl
  have hselected : grep false true [byte '\\', byte 'D'] [byte 'a'] = .ok true := by
    refine h _ _ (fun regex rest hregex => ?_) (List.forall_mem_singleton.mpr (by decide)) rfl
    rw [hparse] at hregex
    cases hregex
    exact ⟨⟨⟨trivial, trivial⟩, trivial⟩, trivial⟩
  have hnot : grep false true [byte '\\', byte 'D'] [byte 'a'] = .ok false := rfl
  rw [hnot] at hselected
  cases hselected

end Grep

end CodingChallenges
