import CodingChallenges.Grep.Captures

/-!
# Backreferences

What the automaton of a group followed by a backreference to it accepts.

A run through the group records where it was entered, crosses its body, and
records where it was left. The groups inside the body write to the same list,
as often as they are entered, but they have larger numbers: they are numbered
after the outer one (`planExpression_atLeast`). So the range of the outer group
is the same behind the body as in front of it (`crossing_captured`), the
backreference finds what was just recorded (`possible_capture_iff`), and what it
asks of the input is the text of the group once more
(`acts_backreference_iff`).

## Main definitions

* `captured`: The range that a backreference looks up.
* `slice`: The characters between two positions.
* `thenBackreference`: The pattern of a group and a backreference to it.

## Theorems

* `crossing_captured`: A plan leaves the ranges of other groups alone.
* `acts_backreference_iff`: What a backreference does.
* `possible_capture_iff`: What a run through a group has recorded.
* `thenBackreference_accepts_iff`: The automaton of the pattern.
-/

namespace CodingChallenges

namespace Grep

/-- The range that a backreference looks up. -/
def captured (captures : Option (List Range)) (groupId : Nat) : Option Range :=
  (captures.getD []).find? fun range => range.groupId == groupId

section Lookup

variable {n groupId position : Nat} {ranges : List Range}

theorem find_startRange_of_ne (hne : n ≠ groupId) :
    (startRange n position ranges).find? (fun range => range.groupId == groupId)
      = ranges.find? fun range => range.groupId == groupId := by
  induction ranges with
  | nil =>
      have hhead : (n == groupId) = false := beq_false_of_ne hne
      rw [startRange, List.find?_cons, hhead]
  | cons range rest ih =>
      unfold startRange
      split
      · next h =>
          have hhead : (range.groupId == groupId) = false := by
            rw [h]
            exact beq_false_of_ne hne
          rw [List.find?_cons, List.find?_cons, hhead]
      · rw [List.find?_cons, List.find?_cons, ih]

theorem find_endRange_of_ne (hne : n ≠ groupId) {ranges' : List Range}
    (h : endRange n position ranges = some ranges') :
    ranges'.find? (fun range => range.groupId == groupId)
      = ranges.find? fun range => range.groupId == groupId := by
  induction ranges generalizing ranges' with
  | nil => cases h
  | cons range rest ih =>
      unfold endRange at h
      split at h
      · next hid =>
          cases h
          have hhead : (range.groupId == groupId) = false := by
            rw [hid]
            exact beq_false_of_ne hne
          rw [List.find?_cons, List.find?_cons, hhead]
      · rw [Option.map_eq_some_iff] at h
        rcases h with ⟨rest', hend, rfl⟩
        rw [List.find?_cons, List.find?_cons, ih hend]

/-- The end of a group completes the range that is looked up for it. -/
theorem find_endRange_self {ranges' : List Range} {range : Range}
    (hfind : ranges.find? (fun range => range.groupId == groupId) = some range)
    (h : endRange groupId position ranges = some ranges') :
    ranges'.find? (fun range => range.groupId == groupId)
      = some { range with toPosition := some position } := by
  induction ranges generalizing ranges' with
  | nil => cases h
  | cons first rest ih =>
      unfold endRange at h
      rw [List.find?_cons] at hfind
      split at h
      · next hid =>
          cases h
          have hhead : (first.groupId == groupId) = true := beq_iff_eq.mpr hid
          rw [hhead] at hfind
          cases hfind
          rw [List.find?_cons, hhead]
      · next hid =>
          have hhead : (first.groupId == groupId) = false := beq_false_of_ne hid
          rw [hhead] at hfind
          rw [Option.map_eq_some_iff] at h
          rcases h with ⟨rest', hend, rfl⟩
          rw [List.find?_cons, hhead, ih hfind hend]

end Lookup

section Frame

variable {D : Type} {act : TransitionConditionType → D → D → Prop} {Q : D → D → Prop}
  {P : TransitionConditionType → Prop} (hrefl : ∀ d, Q d d)
  (htrans : ∀ d m d', Q d m → Q m d' → Q d d')
include hrefl htrans

mutual

/-- A crossing stays within a relation that every condition of the plan and
    every one of its captures stays within. -/
theorem crossing_within (hP : ∀ c, P c → ∀ d d', act c d d' → Q d d') :
    ∀ plan : Plan, plan.Forall P →
      (∀ n ∈ plan.groupNumbers, ∀ d d', act (.groupCaptureStart n) d d' ∨
        act (.groupCaptureEnd n) d d' → Q d d') → CostRel.Within (plan.crossing act) Q
  | .basic condition, h, _ => CostRel.within_atom (hP condition h)
  | .concat first second, h, hcapture =>
      (crossing_within hP first h.1 fun n hn => hcapture n (List.mem_append_left _ hn)).seq htrans
        ((CostRel.within_tick hrefl).seq htrans
          (crossing_within hP second h.2 fun n hn => hcapture n (List.mem_append_right _ hn)))
  | .star _ body, h, hcapture =>
      (CostRel.within_tick hrefl).seq htrans
        (((crossing_within hP body h hcapture).seq htrans (CostRel.within_tick hrefl)).many
          hrefl htrans _)
  -- A loop stays within what is transitive if one round does.
  | .plus _ body, h, hcapture =>
      ((crossing_within hP body h hcapture).seq htrans (CostRel.within_tick hrefl)).many
        hrefl htrans _
  | .option _ body, h, hcapture =>
      (CostRel.within_tick hrefl).seq htrans
        (((crossing_within hP body h hcapture).seq htrans (CostRel.within_tick hrefl)).many
          hrefl htrans _)
  | .capture groupId body, h, hcapture =>
      have hown := hcapture groupId List.mem_cons_self
      (CostRel.within_atom fun d d' hact => hown d d' (Or.inl hact)).seq htrans
        ((crossing_within hP body h fun n hn => hcapture n (List.mem_cons_of_mem _ hn)).seq htrans
          (CostRel.within_atom fun d d' hact => hown d d' (Or.inr hact)))
  | .alternation alternatives, h, hcapture => crossingAlternatives_within hP alternatives h hcapture

theorem crossingAlternatives_within (hP : ∀ c, P c → ∀ d d', act c d d' → Q d d') :
    ∀ alternatives : List Plan,
    Plan.ForallAlternatives P alternatives →
    (∀ n ∈ Plan.groupNumbersOfAlternatives alternatives, ∀ d d',
      act (.groupCaptureStart n) d d' ∨ act (.groupCaptureEnd n) d d' → Q d d') →
      CostRel.Within (Plan.crossingAlternatives act alternatives) Q
  | [], _, _ => fun _ _ _ hfalse => absurd hfalse id
  | alternative :: rest, h, hcapture => by
      have hfirst := (CostRel.within_tick hrefl).seq htrans
        ((crossing_within hP alternative h.1 fun n hn =>
          hcapture n (List.mem_append_left _ hn)).seq htrans (CostRel.within_tick hrefl))
      have hrest := crossingAlternatives_within hP rest h.2 fun n hn =>
        hcapture n (List.mem_append_right _ hn)
      intro d n d' hrun
      rcases hrun with hrun | hrun
      · exact hfirst d n d' hrun
      · exact hrest d n d' hrun

end

end Frame

/-- Crossing a plan leaves the range of a group alone that is none of its own. -/
theorem crossing_captured {input : List Nat} {plan : Plan} {groupId : Nat}
    (hleaf : plan.Forall TransitionConditionType.IsLeaf)
    (hnumbers : ∀ n ∈ plan.groupNumbers, n ≠ groupId) {d d' : Data}
    (h : CostRel.Possible (plan.crossing (Acts input)) d d') :
    captured d'.2 groupId = captured d.2 groupId := by
  rcases h with ⟨cost, h⟩
  refine crossing_within (Q := fun d d' : Data => captured d'.2 groupId = captured d.2 groupId)
    (fun _ => rfl) (fun _ _ _ h₁ h₂ => h₂.trans h₁) (fun c hc d d' hacts => ?_) plan hleaf
    (fun n hn d d' hacts => ?_) d cost d' h
  · rw [hacts.captures_eq (TransitionConditionType.IsLeaf.not_isCapture hc)]
  rcases hacts with hacts | hacts
  · rw [acts_captureStart_iff] at hacts
    rw [hacts]
    exact find_startRange_of_ne (hnumbers n hn)
  · rcases (acts_captureEnd_iff input n d d').mp hacts with ⟨ranges, ranges', hranges, hend, rfl⟩
    rw [hranges]
    exact find_endRange_of_ne (hnumbers n hn) hend

/-- The characters between two positions. -/
def slice (input : List Nat) (first last : Nat) : List Nat :=
  (input.drop first).take (last - first)

/-- A backreference finds a complete range, and its text in front of the rest of
    the input. -/
theorem processBackreferenceTransition_eq_some (originalInput : List Nat) (matchState : MatchState)
    (t b : Nat) (input : List Nat) (result : TransitionResult) :
    processBackreferenceTransition originalInput matchState t b input = some result ↔
      ∃ first last, captured matchState.groupRanges b = some ⟨b, some first, some last⟩ ∧
        slice originalInput first last <+: input ∧
        result = ⟨(slice originalInput first last).length, t⟩ := by
  rcases matchState with ⟨position, q, captures⟩
  unfold processBackreferenceTransition
  cases captures with
  | none =>
      refine iff_of_false (fun h => by cases h) (fun h => ?_)
      rcases h with ⟨first, last, hfind, -⟩
      cases hfind
  | some ranges =>
      have hcaptured : captured (some ranges) b
          = ranges.find? fun range => range.groupId == b := rfl
      simp only [hcaptured]
      cases hfind : ranges.find? fun range => range.groupId == b with
      | none =>
          refine iff_of_false (fun h => by cases h) (fun h => ?_)
          rcases h with ⟨first, last, hsome, -⟩
          cases hsome
      | some range =>
          have hid : range.groupId = b := by
            have hbeq := List.find?_some hfind
            exact beq_iff_eq.mp hbeq
          rcases range with ⟨id, fromPosition, toPosition⟩
          simp only at hid
          subst hid
          -- A range with an end missing is not read.
          cases fromPosition with
          | none =>
              refine iff_of_false (fun h => by cases h) (fun h => ?_)
              rcases h with ⟨first, last, hsome, -⟩
              cases hsome
          | some first =>
              cases toPosition with
              | none =>
                  refine iff_of_false (fun h => by cases h) (fun h => ?_)
                  rcases h with ⟨first', last, hsome, -⟩
                  cases hsome
              | some last =>
                  simp only [Option.some.injEq, Range.mk.injEq, true_and]
                  refine ⟨fun h => ?_, fun h => ?_⟩
                  · split at h
                    · next hprefix =>
                        cases h
                        exact ⟨first, last, ⟨rfl, rfl⟩, List.isPrefixOf_iff_prefix.mp hprefix, rfl⟩
                    · cases h
                  · rcases h with ⟨first', last', ⟨rfl, rfl⟩, hprefix, rfl⟩
                    exact if_pos (List.isPrefixOf_iff_prefix.mpr hprefix)

/-- A backreference consumes the text of a complete range. -/
theorem acts_backreference_iff (input : List Nat) (b : Nat) (d d' : Data) :
    Acts input (.backreference b) d d' ↔
      ∃ first last, captured d.2 b = some ⟨b, some first, some last⟩ ∧
        slice input first last <+: input.drop d.1 ∧
        d' = (d.1 + (slice input first last).length, d.2) := by
  simp only [Acts, processTransition, pure_eq_ok, Except.ok.injEq, Prod.mk.injEq,
    processBackreferenceTransition_eq_some]
  refine ⟨fun h => ?_, fun h => ?_⟩
  · rcases h with ⟨result, branchState, ⟨⟨first, last, hfind, hprefix, rfl⟩, rfl⟩, rfl⟩
    exact ⟨first, last, hfind, hprefix, rfl⟩
  · rcases h with ⟨first, last, hfind, hprefix, rfl⟩
    exact ⟨_, _, ⟨⟨first, last, hfind, hprefix, rfl⟩, rfl⟩, rfl⟩

/-- What a run through a group has recorded: where it was entered and left. -/
theorem possible_capture_iff {input : List Nat} {body : Plan} {groupId : Nat}
    (hleaf : body.Forall TransitionConditionType.IsLeaf)
    (hnumbers : ∀ n ∈ body.groupNumbers, n ≠ groupId) {s m : Nat} (hm : m ≤ input.length) :
    (∃ captures, CostRel.Possible ((Plan.capture groupId body).crossing (Acts input)) (s, none)
        (m, captures) ∧ captured captures groupId = some ⟨groupId, some s, some m⟩) ↔
      body.Connects input s m := by
  have hforgets := crossing_forgets input body hleaf
  simp only [Plan.crossing, CostRel.possible_seq, CostRel.possible_atom]
  refine ⟨fun h => ?_, fun h => ?_⟩
  · rcases h with ⟨captures, ⟨d₁, hstart, d₂, ⟨n, hbody⟩, hlast⟩, -⟩
    rw [acts_captureStart_iff] at hstart
    subst hstart
    rcases (acts_captureEnd_iff _ _ _ _).mp hlast with ⟨ranges, ranges', -, -, heq⟩
    rw [Prod.mk.injEq] at heq
    have hmoves := (hforgets.sound _ n _ hbody).2.1
    rw [← heq.1] at hmoves
    exact ⟨n, hmoves hm⟩
  · rcases h with ⟨n, hmoves⟩
    let entered : Option (List Range) := some [⟨groupId, some s, none⟩]
    rcases hforgets.complete s n m hmoves entered with ⟨captures, hbody⟩
    -- The groups of the body have other numbers, so the range is still there.
    have hkeep : captured captures groupId = some ⟨groupId, some s, none⟩ := by
      rw [crossing_captured hleaf hnumbers ⟨n, hbody⟩]
      exact List.find?_cons_of_pos (beq_self_eq_true groupId)
    rcases captures with _ | ranges
    · cases hkeep
    · have hmem : ∃ range ∈ ranges, range.groupId = groupId :=
        ⟨_, List.mem_of_find?_eq_some hkeep, rfl⟩
      rcases (endRange_isSome_iff groupId m ranges).mpr hmem with ⟨ranges', hend⟩
      refine ⟨some ranges', ⟨(s, entered), ?_, (m, some ranges), ⟨n, hbody⟩, ?_⟩, ?_⟩
      · rw [acts_captureStart_iff]
        rfl
      · rw [acts_captureEnd_iff]
        exact ⟨ranges, ranges', rfl, hend, rfl⟩
      · exact find_endRange_self hkeep hend

/-- Every run through a group has recorded that. -/
theorem captured_of_possible {input : List Nat} {body : Plan} {groupId : Nat}
    (hleaf : body.Forall TransitionConditionType.IsLeaf)
    (hnumbers : ∀ n ∈ body.groupNumbers, n ≠ groupId) {s : Nat} {d : Data}
    (h : CostRel.Possible ((Plan.capture groupId body).crossing (Acts input)) (s, none) d) :
    captured d.2 groupId = some ⟨groupId, some s, some d.1⟩ := by
  simp only [Plan.crossing, CostRel.possible_seq, CostRel.possible_atom] at h
  rcases h with ⟨d₁, hstart, d₂, hbody, hlast⟩
  rw [acts_captureStart_iff] at hstart
  subst hstart
  rcases (acts_captureEnd_iff _ _ _ _).mp hlast with ⟨ranges, ranges', hranges, hend, rfl⟩
  have hkeep := crossing_captured hleaf hnumbers hbody
  rw [hranges] at hkeep
  have hentered : captured (some (startRange groupId s ((none : Option (List Range)).getD [])))
      groupId = some ⟨groupId, some s, none⟩ :=
    List.find?_cons_of_pos (beq_self_eq_true groupId)
  exact find_endRange_self (hkeep.trans hentered) hend

/-- The pattern of a group and a backreference to it. -/
def thenBackreference (expression : Expression) : Regex :=
  { expression := .mk [.mk [.group (.mk false (some expression) none), .backreference 1]] }

/-- Its plan, around the plan of the expression, whose groups are numbered after
    the outer one. -/
theorem planRegex_thenBackreference {expression : Expression} {result : Plan × Nat}
    (hrun : (planExpression expression).run 2 = .ok result) :
    (planRegex (thenBackreference expression)).run 1
      = .ok (.alternation [.concat (.capture 1 result.1) (.basic (.backreference 1))],
        result.2) := by
  have hgroup : (planGroup (.mk false (some expression) none)).run 1
      = .ok (.capture 1 result.1, result.2) := by
    rw [planGroup, StateT.run_bind, run_planGroupId, ok_bind]
    simp only [planQuantified, planGroupBody, Option.getD_some, StateT.run_bind,
      Bool.false_eq_true, if_false, Nat.reduceAdd, hrun, ok_bind]
    rfl
  simp only [planRegex, thenBackreference, planExpression, planAlternatives, planSubExpression,
    planSubExpressionItem, planItems, StateT.run_bind, hgroup, ok_bind]
  rfl

/-- The positions the plan connects, captures and all. -/
theorem possible_thenBackreference_iff {input : List Nat} {body : Plan}
    (hleaf : body.Forall TransitionConditionType.IsLeaf)
    (hnumbers : ∀ n ∈ body.groupNumbers, n ≠ 1) {s e : Nat} (he : e ≤ input.length) :
    (∃ captures, CostRel.Possible
        ((Plan.alternation [.concat (.capture 1 body) (.basic (.backreference 1))]).crossing
          (Acts input)) (s, none) (e, captures)) ↔
      ∃ m, m ≤ e ∧ body.Connects input s m ∧ slice input m e = slice input s m := by
  have hcross : ∀ d d' : Data, CostRel.Possible
      ((Plan.alternation [.concat (.capture 1 body) (.basic (.backreference 1))]).crossing
        (Acts input)) d d' ↔ ∃ d₁, CostRel.Possible ((Plan.capture 1 body).crossing (Acts input))
          d d₁ ∧ Acts input (.backreference 1) d₁ d' := by
    intro d d'
    simp only [Plan.crossing, Plan.crossingAlternatives, or_false, CostRel.possible_tick_seq,
      CostRel.possible_seq_tick]
    rw [CostRel.possible_seq]
    simp only [CostRel.possible_tick_seq, CostRel.possible_atom]
  -- How long the text of the group is, which is as long as what the backreference consumes.
  have hlength : ∀ first last, last ≤ input.length →
      (slice input first last).length = last - first := by
    intro first last hlast
    rw [slice, List.length_take, List.length_drop]
    omega
  have htake : ∀ m text, text <+: input.drop m ↔ (input.drop m).take text.length = text :=
    fun m text => List.prefix_iff_eq_take.trans eq_comm
  refine ⟨fun h => ?_, fun h => ?_⟩
  · rcases h with ⟨captures, h⟩
    rcases (hcross _ _).mp h with ⟨⟨m, captures₁⟩, hgroup, hback⟩
    rcases (acts_backreference_iff input 1 _ _).mp hback with ⟨first, last, hfind, hprefix, heq⟩
    have hcaptured := captured_of_possible hleaf hnumbers hgroup
    rw [hcaptured] at hfind
    simp only [Option.some.injEq, Range.mk.injEq, true_and] at hfind
    rcases hfind with ⟨rfl, rfl⟩
    rw [Prod.mk.injEq] at heq
    have hme : m ≤ e := by omega
    have hlen := hlength s m (by omega)
    refine ⟨m, hme, ?_, ?_⟩
    · exact (possible_capture_iff hleaf hnumbers (Nat.le_trans hme he)).mp
        ⟨captures₁, hgroup, hcaptured⟩
    · have hsub : e - m = (slice input s m).length := by omega
      have hwhole := (htake m _).mp hprefix
      rw [slice, hsub]
      exact hwhole
  · rcases h with ⟨m, hme, hconnects, hslice⟩
    rcases (possible_capture_iff hleaf hnumbers (Nat.le_trans hme he)).mpr hconnects with
      ⟨captures, hgroup, hcaptured⟩
    refine ⟨captures, (hcross _ _).mpr ⟨(m, captures), hgroup, ?_⟩⟩
    rw [acts_backreference_iff]
    have hsub : (slice input s m).length = e - m := by
      rw [← hslice]
      exact hlength m e he
    refine ⟨s, m, hcaptured, (htake m _).mpr ?_, ?_⟩
    · rw [hsub]
      exact hslice
    · rw [hsub]
      simp only [Prod.mk.injEq, and_true]
      omega

/-- The automaton of a group followed by a backreference to it: for every
    expression without backreferences, with quantifiers as the parser builds
    them, its runs from start to accept read something the expression means, and
    then the same text once more. -/
theorem thenBackreference_accepts_iff (expression : Expression)
    (hback : expression.Forall noBackreference) (hshape : expression.Forall wellShaped) :
    ∃ element nfa, (buildRegex (thenBackreference expression)).run {} = .ok (element, nfa) ∧
      ∀ (input : List Nat) (s e : Nat), s ≤ input.length → e ≤ input.length →
        ((∃ n captures, Runs (Transits nfa.states input) n ⟨s, element.start, none⟩
          ⟨e, element.accept, captures⟩) ↔
        ∃ m, m ≤ e ∧ expression.Meaning input s m ∧ slice input m e = slice input s m) := by
  rcases planExpression_denotes expression hback hshape 2 with ⟨result, hrun, hconnects⟩
  have hplan := planRegex_thenBackreference hrun
  have hleaf := planExpression_forall noBackreference_implies_isLeaf expression hback 2 result hrun
  -- The groups inside have other numbers, so that none of them changes what was captured.
  have hnumbers : ∀ n ∈ result.1.groupNumbers, n ≠ 1 := by
    intro n hn
    have hle := planExpression_atLeast expression hrun n hn
    omega
  refine ⟨_, _, by rw [buildRegex_eq, hplan, map_ok, assembled], fun input s e _ he => ?_⟩
  simp only [← hconnects]
  rw [← possible_thenBackreference_iff hleaf hnumbers he]
  refine ⟨fun h => ?_, fun h => ?_⟩
  · rcases h with ⟨n, captures, hruns⟩
    exact ⟨captures, n, (runs_assemble_iff input _ _ _).mp
      ((runs_transits_iff (x := (_, (s, none))) (y := (_, (e, captures))) he).mp hruns)⟩
  · rcases h with ⟨captures, n, hcross⟩
    exact ⟨n, captures, (runs_transits_iff (x := (_, (s, none))) (y := (_, (e, captures))) he).mpr
      ((runs_assemble_iff input _ _ _).mpr hcross)⟩

/-- The pattern `(a|(b)*)\1`, with a group inside the group. -/
theorem thenBackreference_accepts_iff_nested :
    ∃ element nfa, (buildRegex (thenBackreference (.mk [
        .mk [.singleMatch { matchItem := .character (codePoint 'a') }],
        .mk [.group (.mk false
          (some (.mk [.mk [.singleMatch { matchItem := .character (codePoint 'b') }]]))
          (some { type := .zeroOrMore }))]]))).run {} = .ok (element, nfa) ∧
      ∀ (input : List Nat) (s e : Nat), s ≤ input.length → e ≤ input.length →
        ((∃ n captures, Runs (Transits nfa.states input) n ⟨s, element.start, none⟩
          ⟨e, element.accept, captures⟩) ↔
        ∃ m, m ≤ e ∧ Expression.Meaning input (.mk [
          .mk [.singleMatch { matchItem := .character (codePoint 'a') }],
          .mk [.group (.mk false
            (some (.mk [.mk [.singleMatch { matchItem := .character (codePoint 'b') }]]))
            (some { type := .zeroOrMore }))]]) s m ∧ slice input m e = slice input s m) := by
  refine thenBackreference_accepts_iff _ ?_ ?_
  · simp only [Expression.Forall, Expression.ForallAlternatives, SubExpression.Forall,
      SubExpression.ForallItems, SubExpressionItem.Forall, Group.Forall,
      NodePredicate.onOptionalQuantifier, noBackreference, and_self]
  · simp only [Expression.Forall, Expression.ForallAlternatives, SubExpression.Forall,
      SubExpression.ForallItems, SubExpressionItem.Forall, Group.Forall,
      NodePredicate.onOptionalQuantifier, wellShaped, Quantifier.WellShaped, reduceCtorEq,
      false_implies, and_self]

end Grep

end CodingChallenges
