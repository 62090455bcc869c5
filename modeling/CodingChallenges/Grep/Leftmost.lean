import CodingChallenges.Grep.Scan

/-!
# The Scan Is Leftmost and Without Overlap

Which parts of a line `match_all` covers, and that it passes over no other match.

The scan moves on by what a match consumed, or by one position if that was
nothing. A result therefore has to say where it starts and ends, which it does in
its first range (`matchOneFrom_spans`): the search only ever moves forward, so
that range does not end before it starts, and the difference of the two is no
wrapped one.

`Matcher.ScansTo` is what a scan from a position on guarantees. It is kept by the
two kinds of rounds there are, one without a match (`ScansTo.skip`) and one with
a match (`ScansTo.cons`), where the positions passed over are those inside it.

## Main definitions

* `MatchResult.Spans`: The part of the input that a result covers.
* `Matcher.ScansTo`: A leftmost scan without overlap, from a position on.

## Theorems

* `matchOneFrom_spans`: A result starts where the search did.
* `matchAllLoop_scansTo`: The scanning loop is such a scan.
* `matchAll_leftmost`: So is the scan of a line.
-/

namespace CodingChallenges

namespace Grep

/-- The whole match goes from the one position to the other. -/
def MatchResult.Spans (result : MatchResult) (first last : Nat) : Prop :=
  result.groupRanges.head?
    = some { groupId := 0, fromPosition := some first, toPosition := some last }

section Forward

variable {matcher : Matcher} {input : List Nat} {startPosition : Nat}

/-- Nothing that a configuration pushes is behind it. -/
theorem branches_forward {c b : MatchState} {transitions : List Transition}
    {pushed : List MatchState} (h : branches input c transitions = .ok pushed) (hb : b ∈ pushed) :
    c.inputPosition ≤ b.inputPosition := by
  rcases (mem_branches_iff h b).mp hb with ⟨transition, -, hbranch⟩
  rcases (branch_eq_ok_iff input c b transition).mp hbranch with ⟨-, -, hacts⟩
  exact hacts.position_le

/-- What the loop returns goes from the start position to one that is not before
    it, as long as no configuration in the queue is. -/
theorem searchLoop_spans {fuel : Nat} {search : SearchState} {result : MatchResult}
    (hqueue : ∀ c ∈ search.statesToProcess, startPosition ≤ c.inputPosition)
    (h : searchLoop matcher input startPosition fuel search = some (.ok (some result))) :
    ∃ last, startPosition ≤ last ∧ result.Spans startPosition last := by
  induction fuel generalizing search with
  | zero => cases h
  | succ fuel ih =>
      rcases search with ⟨queue, visited⟩
      unfold searchLoop at h
      cases queue with
      | nil =>
          rw [searchStep] at h
          cases h
      | cons c queue =>
          have hhead := hqueue c List.mem_cons_self
          have hrest : ∀ b ∈ queue, startPosition ≤ b.inputPosition :=
            fun b hb => hqueue b (List.mem_cons_of_mem c hb)
          rcases searchStep_cons matcher input startPosition c queue visited with
            ⟨-, heq⟩ | ⟨-, -, heq⟩ | ⟨-, -, ⟨-, heq⟩ | ⟨state, -, ⟨e, -, heq⟩ |
              ⟨pushed, hpushed, heq⟩⟩⟩
          · rw [heq] at h
            exact ih hrest h
          · rw [heq] at h
            cases h
            exact ⟨c.inputPosition, hhead, rfl⟩
          · rw [heq] at h
            cases h
          · rw [heq] at h
            cases h
          · rw [heq] at h
            -- No transition steps back from where the head stands.
            refine ih (fun b hb => ?_) h
            rcases List.mem_append.mp hb with hb | hb
            · exact hrest b hb
            · exact Nat.le_trans hhead (branches_forward hpushed hb)

/-- A result starts where the search did, and does not end before that. -/
theorem matchOneFrom_spans {result : MatchResult}
    (h : matchOneFrom matcher input startPosition = .ok (some result)) :
    ∃ last, startPosition ≤ last ∧ result.Spans startPosition last := by
  unfold matchOneFrom at h
  cases hloop : searchLoop matcher input startPosition (searchFuel matcher input)
      (initialSearch matcher startPosition) with
  | none =>
      rw [hloop] at h
      cases h
  | some found =>
      rw [hloop, Option.getD_some] at h
      rw [h] at hloop
      refine searchLoop_spans (fun c hc => ?_) hloop
      rw [initialSearch, List.mem_singleton] at hc
      subst hc
      exact Nat.le_refl startPosition

end Forward

/-- The scan moves on to the end of a match, or by one position if it is empty. -/
theorem consumedBy_spans {result : MatchResult} {first last : Nat}
    (h : result.Spans first last) :
    consumedBy result = if 0 < last - first then last - first else 1 := by
  unfold consumedBy
  rw [h]

/-- What a scan from position `i` on finds, and the parts of the input it covers:
    they are in order and do not overlap, each is what the search from its start
    finds, and a position where the search finds something is the start of one of
    them or inside one. -/
structure Matcher.ScansTo (matcher : Matcher) (input : List Nat) (i : Nat)
    (results : List MatchResult) (spans : List (Nat × Nat)) : Prop where
  found : List.Forall₂ (fun result span => span.1 ≤ span.2 ∧ result.Spans span.1 span.2 ∧
    matchOneFrom matcher input span.1 = .ok (some result)) results spans
  ordered : spans.Pairwise fun span later => span.1 < later.1 ∧ span.2 ≤ later.1
  starts : ∀ span ∈ spans, i ≤ span.1
  complete : ∀ p, p = i ∨ (i < p ∧ p < input.length) → matcher.MatchesFrom input p →
    ∃ span ∈ spans, p = span.1 ∨ (span.1 < p ∧ p < span.2)

section Rounds

variable {matcher : Matcher} {input : List Nat} {i : Nat}

theorem not_matchesFrom (h : matchOneFrom matcher input i = .ok none) :
    ¬ matcher.MatchesFrom input i := by
  intro hmatches
  rcases hmatches with ⟨result, hresult⟩
  rw [h] at hresult
  cases hresult

/-- At the end of the input a scan without a match is over. -/
theorem Matcher.ScansTo.nil (hnone : matchOneFrom matcher input i = .ok none)
    (hend : input.length ≤ i + 1) : matcher.ScansTo input i [] [] := by
  refine ⟨.nil, .nil, fun span hspan => ?_, fun p hp hmatches => ?_⟩
  · exact absurd hspan List.not_mem_nil
  · rcases hp with rfl | ⟨hlt, hlength⟩
    · exact absurd hmatches (not_matchesFrom hnone)
    · omega

/-- A position without a match is left out. -/
theorem Matcher.ScansTo.skip {results : List MatchResult} {spans : List (Nat × Nat)}
    (hnone : matchOneFrom matcher input i = .ok none)
    (h : matcher.ScansTo input (i + 1) results spans) : matcher.ScansTo input i results spans := by
  refine ⟨h.found, h.ordered, fun span hspan => ?_, fun p hp hmatches => ?_⟩
  · exact Nat.le_of_succ_le (h.starts span hspan)
  · rcases hp with rfl | ⟨hlt, hlength⟩
    · exact absurd hmatches (not_matchesFrom hnone)
    · exact h.complete p (by omega) hmatches

/-- At the end of the input the scan is over with its match. -/
theorem Matcher.ScansTo.singleton {result : MatchResult} {last : Nat}
    (hsome : matchOneFrom matcher input i = .ok (some result)) (hle : i ≤ last)
    (hspans : result.Spans i last) (hend : input.length ≤ i + consumedBy result) :
    matcher.ScansTo input i [result] [(i, last)] := by
  refine ⟨.cons ⟨hle, hspans, hsome⟩ .nil, List.pairwise_singleton _ _, fun span hspan => ?_,
    fun p hp _ => ⟨(i, last), List.mem_cons_self, ?_⟩⟩
  · rw [List.mem_singleton] at hspan
    subst hspan
    exact Nat.le_refl i
  · rcases hp with rfl | ⟨hlt, hlength⟩
    · exact Or.inl rfl
    · -- The match reaches the end of the input, so the position is inside it.
      rw [consumedBy_spans hspans] at hend
      refine Or.inr ⟨hlt, ?_⟩
      simp only
      split at hend <;> omega

/-- A match comes in front of what is found behind it. -/
theorem Matcher.ScansTo.cons {result : MatchResult} {last : Nat}
    {results : List MatchResult} {spans : List (Nat × Nat)}
    (hsome : matchOneFrom matcher input i = .ok (some result)) (hle : i ≤ last)
    (hspans : result.Spans i last)
    (h : matcher.ScansTo input (i + consumedBy result) results spans) :
    matcher.ScansTo input i (result :: results) ((i, last) :: spans) := by
  -- The scan goes on behind the match, and in any case behind its start.
  have hbehind : i < i + consumedBy result ∧ last ≤ i + consumedBy result := by
    rw [consumedBy_spans hspans]
    split <;> omega
  refine ⟨.cons ⟨hle, hspans, hsome⟩ h.found, ?_, ?_, fun p hp hmatches => ?_⟩
  · refine List.pairwise_cons.mpr ⟨fun later hlater => ?_, h.ordered⟩
    have hstarts := h.starts later hlater
    simp only
    omega
  · refine List.forall_mem_cons.mpr ⟨Nat.le_refl i, fun span hspan => ?_⟩
    have hstarts := h.starts span hspan
    omega
  · -- A position is the start of the match, inside it, or behind it.
    by_cases hinside : p < i + consumedBy result
    · refine ⟨(i, last), List.mem_cons_self, ?_⟩
      rw [consumedBy_spans hspans] at hinside
      simp only
      split at hinside <;> omega
    · rcases h.complete p (by omega) hmatches with ⟨span, hspan, hp⟩
      exact ⟨span, List.mem_cons_of_mem _ hspan, hp⟩

/-- A start position of a scan is its first one or before the end of the input. -/
theorem Matcher.TriesFrom.eq_or_lt {s : Nat} (h : matcher.TriesFrom input i s) :
    s = i ∨ s < input.length := by
  cases h with
  | first => exact Or.inl rfl
  | next _ _ hlt => exact Or.inr hlt

/-- The scanning loop is a leftmost scan without overlap, and with enough rounds
    their number does not matter. -/
theorem matchAllLoop_scansTo (hi : i ≤ input.length)
    (hok : ∀ s, matcher.TriesFrom input i s → ∃ found, matchOneFrom matcher input s = .ok found) :
    ∃ results spans, (∀ fuel, input.length < i + fuel →
      matchAllLoop matcher input fuel i = .ok results) ∧ matcher.ScansTo input i results spans := by
  -- The induction is on what is left of the input.
  induction hleft : input.length - i using Nat.strong_induction_on generalizing i with
  | _ n ih =>
      rcases hok i .first with ⟨found, hfound⟩
      cases found with
      | none =>
          by_cases hlt : i + 1 < input.length
          · have hlater : ∀ s, matcher.TriesFrom input (i + 1) s →
                ∃ found, matchOneFrom matcher input s = .ok found :=
              fun s hs => hok s ((triesFrom_iff hfound s).mpr (Or.inr ⟨hlt, hs⟩))
            rcases ih (input.length - (i + 1)) (by omega) (Nat.le_of_lt hlt) hlater rfl with
              ⟨results, spans, hloop, hscan⟩
            refine ⟨results, spans, fun fuel hfuel => ?_, hscan.skip hfound⟩
            rcases Nat.exists_eq_succ_of_ne_zero (show fuel ≠ 0 by omega) with ⟨fuel, rfl⟩
            rw [Nat.succ_eq_add_one, matchAllLoop_of_none hfound, if_pos hlt]
            exact hloop fuel (by omega)
          · refine ⟨[], [], fun fuel hfuel => ?_, .nil hfound (by omega)⟩
            rcases Nat.exists_eq_succ_of_ne_zero (show fuel ≠ 0 by omega) with ⟨fuel, rfl⟩
            rw [Nat.succ_eq_add_one, matchAllLoop_of_none hfound, if_neg hlt]
      | some result =>
          have hpos := consumedBy_pos result
          rcases matchOneFrom_spans hfound with ⟨last, hle, hspans⟩
          by_cases hlt : i + consumedBy result < input.length
          · have hlater : ∀ s, matcher.TriesFrom input (i + consumedBy result) s →
                ∃ found, matchOneFrom matcher input s = .ok found :=
              fun s hs => hok s ((triesFrom_iff hfound s).mpr (Or.inr ⟨hlt, hs⟩))
            rcases ih (input.length - (i + consumedBy result)) (by omega) (Nat.le_of_lt hlt)
              hlater rfl with ⟨results, spans, hloop, hscan⟩
            refine ⟨result :: results, (i, last) :: spans, fun fuel hfuel => ?_,
              hscan.cons hfound hle hspans⟩
            rcases Nat.exists_eq_succ_of_ne_zero (show fuel ≠ 0 by omega) with ⟨fuel, rfl⟩
            rw [Nat.succ_eq_add_one, matchAllLoop_of_some hfound, if_pos hlt,
              hloop fuel (by omega)]
            rfl
          · refine ⟨[result], [(i, last)], fun fuel hfuel => ?_,
              .singleton hfound hle hspans (by omega)⟩
            rcases Nat.exists_eq_succ_of_ne_zero (show fuel ≠ 0 by omega) with ⟨fuel, rfl⟩
            rw [Nat.succ_eq_add_one, matchAllLoop_of_some hfound, if_neg hlt]

end Rounds

/-- For every matcher and every input on which none of the searches that the scan
    makes throws: the scan ends, whatever number of rounds it is given beyond
    those it needs, and its results cover parts of the input that are in order
    and do not overlap. Each of them is the result of the search from its start,
    and a position at which the search succeeds is the start of one of them or
    inside one. -/
theorem matchAll_leftmost (matcher : Matcher) (input : List Nat)
    (hok : ∀ s, matcher.TriesFrom input 0 s → ∃ found, matchOneFrom matcher input s = .ok found) :
    ∃ results, ∃ spans : List (Nat × Nat), matchAll matcher input = .ok results ∧
      (∀ fuel, input.length < fuel → matchAllLoop matcher input fuel 0 = .ok results) ∧
      List.Forall₂ (fun result span => span.1 ≤ span.2 ∧ result.Spans span.1 span.2 ∧
        matchOneFrom matcher input span.1 = .ok (some result)) results spans ∧
      (spans.Pairwise fun span later => span.1 < later.1 ∧ span.2 ≤ later.1) ∧
      ∀ p, p = 0 ∨ p < input.length → matcher.MatchesFrom input p →
        ∃ span ∈ spans, p = span.1 ∨ (span.1 < p ∧ p < span.2) := by
  rcases matchAllLoop_scansTo (Nat.zero_le _) hok with ⟨results, spans, hloop, hscan⟩
  refine ⟨results, spans, hloop _ (by omega), fun fuel hfuel => hloop fuel (by omega), hscan.found,
    hscan.ordered, fun p hp hmatches => hscan.complete p ?_ hmatches⟩
  omega

/-- The scan of a line of two letters for `.`. -/
theorem matchAll_leftmost_dot :
    ∃ results, ∃ spans : List (Nat × Nat),
      matchAll (compiled ⟨0, 1⟩ dotNfa) [97, 98] = .ok results ∧
      (∀ fuel, [97, 98].length < fuel →
        matchAllLoop (compiled ⟨0, 1⟩ dotNfa) [97, 98] fuel 0 = .ok results) ∧
      List.Forall₂ (fun result span => span.1 ≤ span.2 ∧ result.Spans span.1 span.2 ∧
        matchOneFrom (compiled ⟨0, 1⟩ dotNfa) [97, 98] span.1 = .ok (some result))
        results spans ∧
      (spans.Pairwise fun span later => span.1 < later.1 ∧ span.2 ≤ later.1) ∧
      ∀ p, p = 0 ∨ p < [97, 98].length → (compiled ⟨0, 1⟩ dotNfa).MatchesFrom [97, 98] p →
        ∃ span ∈ spans, p = span.1 ∨ (span.1 < p ∧ p < span.2) := by
  refine matchAll_leftmost (compiled ⟨0, 1⟩ dotNfa) [97, 98] fun s hs => ?_
  have hlt : s < 2 := by
    rcases hs.eq_or_lt with rfl | hlt
    · exact Nat.two_pos
    · exact hlt
  have hcases : s = 0 ∨ s = 1 := by omega
  rcases hcases with rfl | rfl
  · exact ⟨some ⟨[⟨0, some 0, some 1⟩]⟩, by decide⟩
  · exact ⟨some ⟨[⟨0, some 1, some 2⟩]⟩, by decide⟩

end Grep

end CodingChallenges
