import CodingChallenges.Grep.Bounds

/-!
# Scanning a Line

What `match_all` finds, given what `match_one_from` returns.

The scan calls the search from one start position after another. Its body runs
before its condition is tested, so the first start position is always tried,
and the condition admits the positions before the end of the input. The end
itself is a start position only when the input is empty. A pattern that matches
at the end and nowhere before it is therefore not found, and nothing else is
missed (`matchAll_complete_iff`).

## Main definitions

* `Matcher.MatchesFrom`: The search from a position has a result.
* `Matcher.TriesFrom`: The start positions of a scan.

## Theorems

* `matchAllLoop_ok`, `matchAllLoop_ok_iff`: The scan throws nothing if no search
  does, and exactly if none of those it makes does.
* `mem_matchAllLoop`: Every result is one of some search.
* `matchAllLoop_ne_nil_iff`: When the scan has results.
* `matchAll_complete_iff`: When the scan finds a match that there is.
-/

namespace CodingChallenges

namespace Grep

/-- The search from a position has a result. -/
def Matcher.MatchesFrom (matcher : Matcher) (input : List Nat) (startPosition : Nat) : Prop :=
  ∃ result, matchOneFrom matcher input startPosition = .ok (some result)

section Scan

variable {matcher : Matcher} {input : List Nat}

theorem matchAllLoop_of_none {fuel i : Nat} (h : matchOneFrom matcher input i = .ok none) :
    matchAllLoop matcher input (fuel + 1) i
      = if i + 1 < input.length then matchAllLoop matcher input fuel (i + 1) else .ok [] := by
  rw [matchAllLoop, h]
  rfl

theorem matchAllLoop_of_some {fuel i : Nat} {result : MatchResult}
    (h : matchOneFrom matcher input i = .ok (some result)) :
    matchAllLoop matcher input (fuel + 1) i
      = if i + consumedBy result < input.length then
          (matchAllLoop matcher input fuel (i + consumedBy result)).map (result :: ·)
        else .ok [result] := by
  rw [matchAllLoop, h]
  simp only [ok_bind]
  split
  · cases matchAllLoop matcher input fuel (i + consumedBy result) <;> rfl
  · rfl

/-- The scan moves on in every round. -/
theorem consumedBy_pos (result : MatchResult) : 0 < consumedBy result := by
  unfold consumedBy
  split
  · split
    · next h => exact h
    · exact Nat.one_pos
  · exact Nat.one_pos

/-- Every result of the scan is one of a search from some position, which is
    before the end of the input or the first one. -/
theorem mem_matchAllLoop {fuel i : Nat} {results : List MatchResult}
    (h : matchAllLoop matcher input fuel i = .ok results) {result : MatchResult}
    (hmem : result ∈ results) :
    ∃ s, i ≤ s ∧ (s < input.length ∨ s = i) ∧
      matchOneFrom matcher input s = .ok (some result) := by
  induction fuel generalizing i results with
  | zero =>
      cases h
      exact absurd hmem List.not_mem_nil
  | succ fuel ih =>
      cases hone : matchOneFrom matcher input i with
      | error e =>
          rw [matchAllLoop, hone] at h
          cases h
      | ok first =>
          cases first with
          | none =>
              -- Without a match the scan goes on at the next position, if there is one.
              rw [matchAllLoop_of_none hone] at h
              split at h
              · next hlt =>
                  rcases ih h hmem with ⟨s, his, hs, hresult⟩
                  exact ⟨s, by omega, Or.inl (by omega), hresult⟩
              · cases h
                exact absurd hmem List.not_mem_nil
          | some first =>
              -- Behind a match it goes on too, and the match is the first of its results.
              rw [matchAllLoop_of_some hone] at h
              split at h
              · next hlt =>
                  rcases map_eq_ok.mp h with ⟨more, hmore, rfl⟩
                  rcases List.mem_cons.mp hmem with rfl | hmem
                  · exact ⟨i, Nat.le_refl i, Or.inr rfl, hone⟩
                  · rcases ih hmore hmem with ⟨s, his, hs, hresult⟩
                    exact ⟨s, by omega, Or.inl (by omega), hresult⟩
              · cases h
                rw [List.mem_singleton] at hmem
                subst hmem
                exact ⟨i, Nat.le_refl i, Or.inr rfl, hone⟩

/-- A scan without results has searched every position from its first one on. -/
theorem matchAllLoop_nil {fuel i : Nat} (hi : i ≤ input.length) (hfuel : input.length < i + fuel)
    (h : matchAllLoop matcher input fuel i = .ok []) {s : Nat} (his : i ≤ s)
    (hs : s < input.length ∨ s = i) : matchOneFrom matcher input s = .ok none := by
  induction fuel generalizing i with
  | zero => omega
  | succ fuel ih =>
      cases hone : matchOneFrom matcher input i with
      | error e =>
          rw [matchAllLoop, hone] at h
          cases h
      | ok first =>
          cases first with
          | some first =>
              rw [matchAllLoop_of_some hone] at h
              split at h
              · rcases map_eq_ok.mp h with ⟨more, -, hmore⟩
                cases hmore
              · cases h
          | none =>
              rcases Nat.eq_or_lt_of_le his with rfl | hlt
              · exact hone
              · rw [matchAllLoop_of_none hone, if_pos (by omega)] at h
                exact ih (by omega) (by omega) h hlt (by omega)

/-- How far the scan moves on after a search. -/
def movedBy (found : Option MatchResult) : Nat :=
  match found with
  | none => 1
  | some result => consumedBy result

/-- The start positions a scan from `i` on comes to. -/
inductive Matcher.TriesFrom (matcher : Matcher) (input : List Nat) (i : Nat) : Nat → Prop where
  | first : TriesFrom matcher input i i
  | next {s : Nat} {found : Option MatchResult} : TriesFrom matcher input i s →
      matchOneFrom matcher input s = .ok found → s + movedBy found < input.length →
      TriesFrom matcher input i (s + movedBy found)

/-- After a search the scan goes on from the next position. -/
theorem triesFrom_iff {i : Nat} {found : Option MatchResult}
    (h : matchOneFrom matcher input i = .ok found) (s : Nat) :
    matcher.TriesFrom input i s ↔ s = i ∨
      (i + movedBy found < input.length ∧ matcher.TriesFrom input (i + movedBy found) s) := by
  refine ⟨fun htries => ?_, fun hcases => ?_⟩
  · induction htries with
    | first => exact Or.inl rfl
    | @next s found' _ hsearch hlt ih =>
        rcases ih with rfl | ⟨hnext, hrest⟩
        · rw [h, Except.ok.injEq] at hsearch
          subst hsearch
          exact Or.inr ⟨hlt, .first⟩
        · exact Or.inr ⟨hnext, hrest.next hsearch hlt⟩
  · rcases hcases with rfl | ⟨hnext, hrest⟩
    · exact .first
    · induction hrest with
      | first => exact Matcher.TriesFrom.first.next h hnext
      | next _ hsearch hlt ih => exact ih.next hsearch hlt

/-- A scan throws nothing exactly if none of the searches it makes does. -/
theorem matchAllLoop_ok_iff {fuel i : Nat} (hi : i ≤ input.length)
    (hfuel : input.length < i + fuel) :
    (∃ results, matchAllLoop matcher input fuel i = .ok results) ↔
      ∀ s, matcher.TriesFrom input i s → ∃ found, matchOneFrom matcher input s = .ok found := by
  induction fuel generalizing i with
  | zero => omega
  | succ fuel ih =>
      cases hone : matchOneFrom matcher input i with
      | error e =>
          -- The first search throws, and it is one of those that are tried.
          refine iff_of_false (fun h => ?_) (fun h => ?_)
          · rcases h with ⟨results, hresults⟩
            rw [matchAllLoop, hone] at hresults
            cases hresults
          · rcases h i .first with ⟨found, hfound⟩
            rw [hone] at hfound
            cases hfound
      | ok found =>
          -- The scan moves on by what was found, or by one: the induction is on what is left.
          have hpos : 0 < movedBy found := by
            cases found with
            | none => exact Nat.one_pos
            | some result => exact consumedBy_pos result
          -- The loop behind the first search, whatever that search found.
          have hloop : (∃ results, matchAllLoop matcher input (fuel + 1) i = .ok results) ↔
              (i + movedBy found < input.length →
                ∃ results, matchAllLoop matcher input fuel (i + movedBy found) = .ok results) := by
            cases found with
            | none =>
                rw [matchAllLoop_of_none hone, movedBy]
                split
                · next hlt => exact ⟨fun h _ => h, fun h => h hlt⟩
                · next hge => exact iff_of_true ⟨[], rfl⟩ (fun hlt => absurd hlt hge)
            | some result =>
                rw [matchAllLoop_of_some hone, movedBy]
                split
                · next hlt =>
                    refine ⟨fun h _ => ?_, fun h => ?_⟩
                    · rcases h with ⟨results, hresults⟩
                      rcases map_eq_ok.mp hresults with ⟨more, hmore, -⟩
                      exact ⟨more, hmore⟩
                    · rcases h hlt with ⟨more, hmore⟩
                      rw [hmore]
                      exact ⟨_, rfl⟩
                · next hge => exact iff_of_true ⟨[result], rfl⟩ (fun hlt => absurd hlt hge)
          rw [hloop]
          refine ⟨fun h s htries => ?_, fun h hlt => ?_⟩
          · rcases (triesFrom_iff hone s).mp htries with rfl | ⟨hlt, hrest⟩
            · exact ⟨found, hone⟩
            · exact (ih (Nat.le_of_lt hlt) (by omega)).mp (h hlt) s hrest
          · refine (ih (Nat.le_of_lt hlt) (by omega)).mpr fun s hrest => ?_
            exact h s ((triesFrom_iff hone s).mpr (Or.inr ⟨hlt, hrest⟩))

variable (hok : ∀ s, s ≤ input.length → ∃ result, matchOneFrom matcher input s = .ok result)
include hok

/-- If no search throws, the scan does not. -/
theorem matchAllLoop_ok (fuel : Nat) {i : Nat} (hi : i ≤ input.length) :
    ∃ results, matchAllLoop matcher input fuel i = .ok results := by
  induction fuel generalizing i with
  | zero => exact ⟨[], rfl⟩
  | succ fuel ih =>
      rcases hok i hi with ⟨first, hone⟩
      cases first with
      | none =>
          rw [matchAllLoop_of_none hone]
          split
          · next hlt => exact ih (Nat.le_of_lt hlt)
          · exact ⟨[], rfl⟩
      | some first =>
          rw [matchAllLoop_of_some hone]
          split
          · next hlt =>
              rcases ih (Nat.le_of_lt hlt) with ⟨more, hmore⟩
              rw [hmore]
              exact ⟨first :: more, rfl⟩
          · exact ⟨[first], rfl⟩

/-- The scan has results if some search it can make has one: those before the
    end of the input, and the first one in any case. -/
theorem matchAllLoop_ne_nil_iff {fuel i : Nat} (hi : i ≤ input.length)
    (hfuel : input.length < i + fuel) {results : List MatchResult}
    (h : matchAllLoop matcher input fuel i = .ok results) :
    results ≠ [] ↔ ∃ s, i ≤ s ∧ (s < input.length ∨ s = i) ∧ matcher.MatchesFrom input s := by
  induction fuel generalizing i results with
  | zero => omega
  | succ fuel ih =>
      rcases hok i hi with ⟨first, hone⟩
      cases first with
      | some first =>
          -- The first position matches, and its result is in the list whatever comes later.
          have hmatches : matcher.MatchesFrom input i := ⟨first, hone⟩
          refine iff_of_true ?_ ⟨i, Nat.le_refl i, Or.inr rfl, hmatches⟩
          rw [matchAllLoop_of_some hone] at h
          split at h
          · rcases map_eq_ok.mp h with ⟨more, -, rfl⟩
            exact List.cons_ne_nil first more
          · cases h
            exact List.cons_ne_nil first []
      | none =>
          -- The search from the first position found nothing, so the others decide.
          have hno : ¬ matcher.MatchesFrom input i := by
            intro hmatches
            rcases hmatches with ⟨result, hsome⟩
            rw [hone] at hsome
            cases hsome
          have hlater : ∀ s, i ≤ s → matcher.MatchesFrom input s → i + 1 ≤ s := by
            intro s his hs
            by_contra hle
            have heq : s = i := by omega
            rw [heq] at hs
            exact hno hs
          rw [matchAllLoop_of_none hone] at h
          split at h
          · next hlt =>
              rw [ih (Nat.le_of_lt hlt) (by omega) h]
              refine ⟨fun hex => ?_, fun hex => ?_⟩
              · rcases hex with ⟨s, his, hs, hmatches⟩
                exact ⟨s, by omega, by omega, hmatches⟩
              · rcases hex with ⟨s, his, hs, hmatches⟩
                have hlt' := hlater s his hmatches
                exact ⟨s, hlt', by omega, hmatches⟩
          · next hge =>
              cases h
              refine iff_of_false (fun hne => hne rfl) (fun hex => ?_)
              rcases hex with ⟨s, his, hs, hmatches⟩
              have hlt' := hlater s his hmatches
              omega

/-- The scan from the first position on. -/
theorem matchAll_ne_nil_iff :
    ∃ results, matchAll matcher input = .ok results ∧
      (results ≠ [] ↔ ∃ s, (s < input.length ∨ s = 0) ∧ matcher.MatchesFrom input s) := by
  rcases matchAllLoop_ok hok (input.length + 1) (Nat.zero_le _) with ⟨results, hresults⟩
  refine ⟨results, hresults, ?_⟩
  rw [matchAllLoop_ne_nil_iff hok (Nat.zero_le _) (by omega) hresults]
  simp only [Nat.zero_le, true_and]

end Scan

/-- For every matcher and every input on which no search throws: the scan has
    results exactly when some search from a position up to the end has one, if
    and only if the input is empty, or nothing matches at its end, or something
    matches before it. -/
theorem matchAll_complete_iff (matcher : Matcher) (input : List Nat)
    (hok : ∀ s, s ≤ input.length → ∃ result, matchOneFrom matcher input s = .ok result) :
    ∃ results, matchAll matcher input = .ok results ∧
      ((results ≠ [] ↔ ∃ s, s ≤ input.length ∧ matcher.MatchesFrom input s) ↔
        (input = [] ∨ ¬ matcher.MatchesFrom input input.length ∨
          ∃ s, s < input.length ∧ matcher.MatchesFrom input s)) := by
  rcases matchAll_ne_nil_iff hok with ⟨results, hresults, hiff⟩
  refine ⟨results, hresults, ?_⟩
  rw [hiff, ← List.length_eq_zero_iff]
  -- The position at the end is the only one the scan may not come to.
  refine ⟨fun h => ?_, fun h => ⟨fun hex => ?_, fun hex => ?_⟩⟩
  · by_cases hend : matcher.MatchesFrom input input.length
    · rcases h.mpr ⟨input.length, Nat.le_refl _, hend⟩ with ⟨s, hs | rfl, hmatches⟩
      · exact Or.inr (Or.inr ⟨s, hs, hmatches⟩)
      · rcases Nat.eq_zero_or_pos input.length with hzero | hpos
        · exact Or.inl hzero
        · exact Or.inr (Or.inr ⟨0, hpos, hmatches⟩)
    · exact Or.inr (Or.inl hend)
  · rcases hex with ⟨s, hs | rfl, hmatches⟩
    · exact ⟨s, Nat.le_of_lt hs, hmatches⟩
    · exact ⟨0, Nat.zero_le _, hmatches⟩
  · rcases hex with ⟨s, hs, hmatches⟩
    rcases Nat.lt_or_eq_of_le hs with hlt | rfl
    · exact ⟨s, Or.inl hlt, hmatches⟩
    · rcases h with hzero | hnone | ⟨s, hs, hbefore⟩
      · exact ⟨_, Or.inr hzero, hmatches⟩
      · exact absurd hmatches hnone
      · exact ⟨s, Or.inl hs, hbefore⟩

/-- The pattern `$` and its automaton. -/
def dollarRegex : Regex :=
  { expression := .mk [.mk [.anchor { type := .endOfString }]] }

/-- The automaton built for the pattern `$`. -/
def dollarNfa : Nfa :=
  { currentId := 4
    states := [
      { id := 0, transitions := [⟨2, .epsilon⟩] },
      { id := 1 },
      { id := 2, transitions := [⟨3, .anchor { type := .endOfString }⟩] },
      { id := 3, transitions := [⟨1, .epsilon⟩] }] }

/-- The searches of `$` on a line with one letter: nothing before the end, an
    empty match at the end. -/
theorem matchOneFrom_dollar :
    matchOneFrom (compiled ⟨0, 1⟩ dollarNfa) [codePoint 'a'] 0 = .ok none ∧
      matchOneFrom (compiled ⟨0, 1⟩ dollarNfa) [codePoint 'a'] 1
        = .ok (some ⟨[⟨0, some 1, some 1⟩]⟩) := by
  decide

theorem matchOneFrom_dollar_ok : ∀ s, s ≤ [codePoint 'a'].length →
    ∃ result, matchOneFrom (compiled ⟨0, 1⟩ dollarNfa) [codePoint 'a'] s = .ok result := by
  intro s hs
  rcases Nat.le_one_iff_eq_zero_or_eq_one.mp hs with rfl | rfl
  · exact ⟨_, matchOneFrom_dollar.1⟩
  · exact ⟨_, matchOneFrom_dollar.2⟩

theorem matchAll_complete_iff_dollar :
    ∃ results, matchAll (compiled ⟨0, 1⟩ dollarNfa) [codePoint 'a'] = .ok results ∧
      ((results ≠ [] ↔ ∃ s, s ≤ [codePoint 'a'].length ∧
          (compiled ⟨0, 1⟩ dollarNfa).MatchesFrom [codePoint 'a'] s) ↔
        ([codePoint 'a'] = [] ∨
          ¬ (compiled ⟨0, 1⟩ dollarNfa).MatchesFrom [codePoint 'a'] [codePoint 'a'].length ∨
          ∃ s, s < [codePoint 'a'].length ∧
            (compiled ⟨0, 1⟩ dollarNfa).MatchesFrom [codePoint 'a'] s)) :=
  matchAll_complete_iff (compiled ⟨0, 1⟩ dollarNfa) [codePoint 'a'] matchOneFrom_dollar_ok

/-- The pattern `$` matches at the end of a line with one letter, no search
    throws, and the scan finds nothing. -/
theorem matchAll_misses_dollar :
    parseRegex [byte '$'] = .ok ⟨dollarRegex, []⟩ ∧
      (buildRegex dollarRegex).run {} = .ok (⟨0, 1⟩, dollarNfa) ∧
      (∀ s, s ≤ [codePoint 'a'].length →
        ∃ result, matchOneFrom (compiled ⟨0, 1⟩ dollarNfa) [codePoint 'a'] s = .ok result) ∧
      matchAll (compiled ⟨0, 1⟩ dollarNfa) [codePoint 'a'] = .ok [] ∧
      ∃ s, s ≤ [codePoint 'a'].length ∧
        (compiled ⟨0, 1⟩ dollarNfa).MatchesFrom [codePoint 'a'] s := by
  refine ⟨rfl, rfl, matchOneFrom_dollar_ok, ?_, 1, Nat.le_refl 1, _, matchOneFrom_dollar.2⟩
  rw [matchAll, matchAllLoop_of_none matchOneFrom_dollar.1]
  rfl

end Grep

end CodingChallenges
