import CodingChallenges.Library.StackDepth
import CodingChallenges.WebServer.Normalize

/-!
# Staying Below the Root

Normalised paths do not lead out of the root.

No percent sign is left when a path has been decoded, no backslash when these are slashes, and no
slash when it has been split. So a component is a name, and as two dots are never put on the
stack there is no way up left. One dot can be left over, but only as the last component, where it
is left over again when the path is normalised once more.

The stack runs out exactly if some beginning of the path has more ways up than names.

## Main definitions

* `Ordinary`, `ClimbsOut`: The pieces that are names, and when there are too few of them.
* `IsName`, `Normalised`: What is left on the stack.

## Theorems

* `climb_eq_none_iff`: When the stack runs out.
* `climb_normalised`, `climb_of_normalised`: What is left on the stack, and stays.
* `normalizeRequest_contained`: What becomes of a request.
-/

namespace CodingChallenges

namespace WebServer

/-- The pieces of a path that are names. -/
def Ordinary (segment : List UInt8) : Prop :=
  segment ≠ [] ∧ segment ≠ bytes "." ∧ segment ≠ bytes ".."

instance (segment : List UInt8) : Decidable (Ordinary segment) :=
  inferInstanceAs (Decidable (_ ∧ _))

/-- The stack runs out within the pieces: some beginning of them has more ways up than names. -/
abbrev ClimbsOut (height : Nat) (segments : List (List UInt8)) : Prop :=
  RunsOut (fun segment => decide (Ordinary segment)) (fun segment => decide (segment = bytes ".."))
    height segments

section Steps

variable {segment : List UInt8} {height : Nat} (segments : List (List UInt8))

theorem climbsOut_up (h : segment = bytes "..") :
    ClimbsOut height (segment :: segments) ↔ height = 0 ∨ ClimbsOut (height - 1) segments := by
  refine runsOut_pop segments ?_ (decide_eq_true h)
  rw [h]
  decide

theorem climbsOut_name (h : Ordinary segment) :
    ClimbsOut height (segment :: segments) ↔ ClimbsOut (height + 1) segments := by
  refine runsOut_push segments (decide_eq_true h) ?_
  rw [decide_eq_true_eq]
  exact h.2.2

theorem climbsOut_skip (h : segment = bytes "." ∨ segment = []) :
    ClimbsOut height (segment :: segments) ↔ ClimbsOut height segments := by
  refine runsOut_neither segments ?_ ?_ <;> rcases h with rfl | rfl <;> decide

end Steps

/-- A piece is skipped, leads up, or is a name. -/
theorem segment_cases (segment : List UInt8) :
    (segment = bytes "." ∨ segment = []) ∨ segment = bytes ".." ∨ Ordinary segment := by
  by_cases hskip : segment = bytes "." ∨ segment = []
  · exact Or.inl hskip
  by_cases hup : segment = bytes ".."
  · exact Or.inr (Or.inl hup)
  rw [not_or] at hskip
  exact Or.inr (Or.inr ⟨hskip.2, hskip.1, hup⟩)

section Segments

variable {components : Components} {segment : List UInt8}

theorem innerSegment_skip (h : segment = bytes "." ∨ segment = []) :
    innerSegment components segment = some components :=
  if_pos h

theorem innerSegment_up : innerSegment components (bytes "..") = popComponent components := by
  rw [innerSegment, if_neg (by decide), if_pos rfl]

theorem innerSegment_name (h : Ordinary segment) :
    innerSegment components segment = some (components ++ [segment]) := by
  rw [innerSegment, if_neg (not_or.mpr ⟨h.2.1, h.1⟩), if_neg h.2.2]

theorem lastSegment_nil : lastSegment components [] = some components :=
  if_pos rfl

theorem lastSegment_up : lastSegment components (bytes "..") = popComponent components := by
  rw [lastSegment, if_neg (by decide), if_pos rfl]

theorem lastSegment_push (hne : segment ≠ []) (h : segment ≠ bytes "..") :
    lastSegment components segment = some (components ++ [segment]) := by
  rw [lastSegment, if_neg hne, if_neg h]

theorem popComponent_eq_none_iff : popComponent components = none ↔ components.length = 0 := by
  rw [popComponent, List.length_eq_zero_iff]
  split_ifs with h
  · exact iff_of_true rfl h
  · exact iff_of_false (fun hnone => nomatch hnone) h

theorem popComponent_eq_some_iff {components' : Components} :
    popComponent components = some components' ↔
      components ≠ [] ∧ components' = components.dropLast := by
  rw [popComponent]
  split_ifs with h
  · exact iff_of_false (fun hsome => nomatch hsome) fun hne => hne.1 h
  · rw [Option.some.injEq, eq_comm]
    exact (and_iff_right h).symm

end Segments

/-- The stack runs out exactly if some beginning has more ways up than names. -/
theorem climb_eq_none_iff (components : Components) (segments : List (List UInt8)) :
    climb components segments = none ↔ ClimbsOut components.length segments := by
  -- Only the number of components matters, as two dots take off whichever is the last.
  induction segments generalizing components with
  | nil => exact iff_of_false (fun h => nomatch h) (not_runsOut_nil _)
  | cons segment segments ih =>
      by_cases hlast : segments = []
      · subst hlast
        rw [climb]
        rcases segment_cases segment with hskip | rfl | hname
        · rw [climbsOut_skip _ hskip]
          refine iff_of_false ?_ (not_runsOut_nil _)
          rcases hskip with rfl | rfl
          · rw [lastSegment_push (by decide) (by decide)]
            exact fun h => nomatch h
          · rw [lastSegment_nil]
            exact fun h => nomatch h
        · rw [lastSegment_up, popComponent_eq_none_iff, climbsOut_up _ rfl]
          exact (or_iff_left (not_runsOut_nil _)).symm
        · rw [lastSegment_push hname.1 hname.2.2, climbsOut_name _ hname]
          exact iff_of_false (fun h => nomatch h) (not_runsOut_nil _)
      · rw [climb_cons _ _ hlast]
        rcases segment_cases segment with hskip | rfl | hname
        · rw [innerSegment_skip hskip, climbsOut_skip _ hskip]
          exact ih components
        · rw [innerSegment_up, climbsOut_up _ rfl]
          cases hpop : popComponent components with
          | none => exact iff_of_true rfl (Or.inl (popComponent_eq_none_iff.mp hpop))
          -- The stack is not empty here, so one way up can be taken.
          | some components' =>
              rcases popComponent_eq_some_iff.mp hpop with ⟨hne, rfl⟩
              have hpos := List.length_pos_iff.mpr hne
              simp only
              rw [ih, List.length_dropLast, or_iff_right (by omega)]
        · rw [innerSegment_name hname, climbsOut_name _ hname]
          simp only
          rw [ih, List.length_append, List.length_singleton]

/-- A component that leads nowhere but down. -/
def IsName (component : List UInt8) : Prop :=
  component ≠ [] ∧ component ≠ bytes ".." ∧ 47 ∉ component ∧ 92 ∉ component ∧ 37 ∉ component

instance (component : List UInt8) : Decidable (IsName component) :=
  inferInstanceAs (Decidable (_ ∧ _))

/-- One dot is left over behind the last slash only. -/
def Normalised (components : Components) : Prop :=
  (∀ c ∈ components, IsName c) ∧ ∀ c ∈ components.dropLast, c ≠ bytes "."

instance (components : Components) : Decidable (Normalised components) :=
  inferInstanceAs (Decidable (_ ∧ _))

/-- The components while the path is gone through. -/
def Inner (components : Components) : Prop :=
  ∀ c ∈ components, IsName c ∧ c ≠ bytes "."

theorem Inner.dropLast {components : Components} (h : Inner components) :
    Inner components.dropLast :=
  fun c hc => h c (List.mem_of_mem_dropLast hc)

theorem Inner.normalised {components : Components} (h : Inner components) :
    Normalised components :=
  ⟨fun c hc => (h c hc).1, fun c hc => (h.dropLast c hc).2⟩

theorem innerSegment_inner {components components' : Components} {segment : List UInt8}
    (hcomponents : Inner components) (hsegment : 47 ∉ segment ∧ 92 ∉ segment ∧ 37 ∉ segment)
    (h : innerSegment components segment = some components') : Inner components' := by
  rcases segment_cases segment with hskip | rfl | hname
  · rw [innerSegment_skip hskip] at h
    cases h
    exact hcomponents
  · rw [innerSegment_up, popComponent_eq_some_iff] at h
    rw [h.2]
    exact hcomponents.dropLast
  · rw [innerSegment_name hname] at h
    cases h
    refine List.forall_mem_append.mpr ⟨hcomponents, List.forall_mem_singleton.mpr ?_⟩
    exact ⟨⟨hname.1, hname.2.2, hsegment⟩, hname.2.1⟩

theorem lastSegment_normalised {components components' : Components} {segment : List UInt8}
    (hcomponents : Inner components) (hsegment : 47 ∉ segment ∧ 92 ∉ segment ∧ 37 ∉ segment)
    (h : lastSegment components segment = some components') : Normalised components' := by
  by_cases hnil : segment = []
  · rw [hnil, lastSegment_nil] at h
    cases h
    exact hcomponents.normalised
  by_cases hup : segment = bytes ".."
  · rw [hup, lastSegment_up, popComponent_eq_some_iff] at h
    rw [h.2]
    exact hcomponents.dropLast.normalised
  · rw [lastSegment_push hnil hup] at h
    cases h
    refine ⟨List.forall_mem_append.mpr ⟨hcomponents.normalised.1, ?_⟩, ?_⟩
    · exact List.forall_mem_singleton.mpr ⟨hnil, hup, hsegment⟩
    · rw [List.dropLast_concat]
      exact fun c hc => (hcomponents c hc).2

/-- What is left on the stack is normalised. -/
theorem climb_normalised {components result : Components} {segments : List (List UInt8)}
    (hcomponents : Inner components) (hsegments : ∀ s ∈ segments, 47 ∉ s ∧ 92 ∉ s ∧ 37 ∉ s)
    (h : climb components segments = some result) : Normalised result := by
  induction segments generalizing components with
  | nil =>
      cases h
      exact hcomponents.normalised
  | cons segment segments ih =>
      rw [List.forall_mem_cons] at hsegments
      -- Only the last piece can leave one dot behind, and nothing comes behind it.
      by_cases hlast : segments = []
      · subst hlast
        exact lastSegment_normalised hcomponents hsegments.1 h
      · rw [climb_cons _ _ hlast] at h
        cases hinner : innerSegment components segment with
        | none =>
            rw [hinner] at h
            cases h
        | some components' =>
            rw [hinner] at h
            exact ih (innerSegment_inner hcomponents hsegments.1 hinner) hsegments.2 h

/-- Names that are normalised are put on the stack one after the other. -/
theorem climb_of_normalised {segments : List (List UInt8)} (components : Components)
    (h : Normalised segments) : climb components segments = some (components ++ segments) := by
  induction segments generalizing components with
  | nil => rw [List.append_nil, climb]
  | cons segment segments ih =>
      rcases h with ⟨hnames, hdots⟩
      rw [List.forall_mem_cons] at hnames
      by_cases hlast : segments = []
      · subst hlast
        exact lastSegment_push hnames.1.1 hnames.1.2.1
      · rw [List.dropLast_cons_of_ne_nil hlast, List.forall_mem_cons] at hdots
        rw [climb_cons _ _ hlast, innerSegment_name ⟨hnames.1.1, hdots.1, hnames.1.2.1⟩]
        simp only
        rw [ih _ ⟨hnames.2, hdots.2⟩, List.append_assoc, List.singleton_append]

/-- No piece holds a slash or a backslash. -/
theorem of_mem_segments {path segment : List UInt8} (hpath : 37 ∉ path)
    (h : segment ∈ segments path) : 47 ∉ segment ∧ 92 ∉ segment ∧ 37 ∉ segment := by
  rcases Delimiter.of_mem_splitOn h with ⟨hslash, hsub⟩
  have hmem : ∀ b ∈ segment, ∃ a ∈ path, toSlash a = b := fun b hb => List.mem_map.mp (hsub hb)
  refine ⟨hslash, fun hb => ?_, fun hb => ?_⟩
  · rcases hmem 92 hb with ⟨a, -, ha⟩
    exact toSlash_ne_backslash a ha
  · rcases hmem 37 hb with ⟨a, hin, ha⟩
    exact hpath (eq_of_toSlash ha (by decide) ▸ hin)

/-- What is left of a path without percent signs is normalised. -/
theorem normalised_of_climb {path : List UInt8} {components : Components} (hpath : 37 ∉ path)
    (h : climb [] (segments path) = some components) : Normalised components := by
  refine climb_normalised (fun c hc => ?_) (fun s hs => of_mem_segments hpath hs) h
  exact absurd hc List.not_mem_nil

theorem not_mem_joinPath {components : Components} {b : UInt8} (hb : b ≠ 47)
    (h : ∀ c ∈ components, b ∉ c) : b ∉ joinPath components := by
  rw [joinPath_eq, List.mem_cons, not_or]
  refine ⟨hb, fun hmem => ?_⟩
  rcases Delimiter.mem_intercalate hmem with hslash | ⟨c, hc, hmem⟩
  · exact hb (List.mem_singleton.mp hslash)
  · exact h c hc hmem

/-- The components are split again. -/
theorem climb_segments_joinPath {components : Components} (h : Normalised components) :
    climb [] (segments (joinPath components)) = some components := by
  have hback : 92 ∉ joinPath components :=
    not_mem_joinPath (by decide) fun c hc => (h.1 c hc).2.2.2.1
  -- The slash in front makes an empty piece, which is skipped.
  have hfirst : (47 :: List.intercalate [47] components).splitOn 47 =
      [] :: (List.intercalate [47] components).splitOn 47 :=
    List.splitOn_append_cons_self_of_not_mem (List.not_mem_nil : (47 : UInt8) ∉ []) _
  rw [segments, map_toSlash hback, joinPath_eq, hfirst, climb_cons _ _ (List.splitOn_ne_nil _ _),
    innerSegment_skip (Or.inr rfl)]
  simp only
  by_cases hnil : components = []
  · rw [hnil]
    rfl
  · rw [List.splitOn_intercalate 47 (fun c hc => (h.1 c hc).2.2.1) hnil, climb_of_normalised [] h,
      List.nil_append]

/-- A normalised path is left as it is. -/
theorem normalizeRequest_of_normalised (method : HttpMethod) {components : Components}
    (h : Normalised components) :
    normalizeRequest ⟨method, joinPath components⟩ = some ⟨method, joinPath components⟩ := by
  have hpercent : 37 ∉ joinPath components :=
    not_mem_joinPath (by decide) fun c hc => (h.1 c hc).2.2.2.2
  rw [normalizeRequest_eq]
  simp only
  rw [urlDecode_of_not_mem hpercent, Option.bind_some, climb_segments_joinPath h]
  rfl

/-- What becomes of a request: the path is split into components that lead nowhere but down, and
    is left as it is by another normalisation. It only fails if decoding does, or the stack runs
    out. -/
theorem normalizeRequest_contained (request : HttpRequest) :
    (∀ result, normalizeRequest request = some result →
      (∃ components, result.path = 47 :: List.intercalate [47] components ∧
        ∀ c ∈ components, IsName c) ∧ normalizeRequest result = some result) ∧
    (normalizeRequest request = none ↔ urlDecode request.path = none ∨
      ∃ path, urlDecode request.path = some path ∧ ClimbsOut 0 (segments path)) := by
  rw [normalizeRequest_eq]
  constructor
  · intro result hresult
    rw [Option.bind_eq_some_iff] at hresult
    rcases hresult with ⟨path, hpath, hresult⟩
    rw [Option.map_eq_some_iff] at hresult
    rcases hresult with ⟨components, hcomponents, rfl⟩
    have hpercent : 37 ∉ path := by
      rw [urlDecode_eq] at hpath
      exact not_mem_of_decodeInPlace hpath
    have hnormalised := normalised_of_climb hpercent hcomponents
    exact ⟨⟨components, joinPath_eq components, hnormalised.1⟩,
      normalizeRequest_of_normalised request.method hnormalised⟩
  · cases hpath : urlDecode request.path with
    | none => exact iff_of_true rfl (Or.inl rfl)
    | some path =>
        rw [Option.bind_some, Option.map_eq_none_iff, climb_eq_none_iff]
        simp only [reduceCtorEq, false_or, Option.some.injEq, exists_eq_left']
        exact Iff.rfl

end WebServer

end CodingChallenges
