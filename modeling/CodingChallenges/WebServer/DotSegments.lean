import CodingChallenges.WebServer.Containment

/-!
# Dot Segments

What becomes of a path when one dot is inserted as a piece of it.

In front of another piece it is skipped. Behind the last slash it is put on the stack, so a path
that ends in such a piece is not normalised to the path without it, unless this one ended in one
dot as well.

## Main definitions

* `InsertsDot`: One dot is inserted between two pieces, in front of them or behind them.

## Theorems

* `climb_concat`: The last piece is treated apart from the others.
* `climb_insert`, `climb_append_dot`: One dot more, in front of other pieces and behind them.
* `normalizeRequest_dot_iff`: When the result is the same.
-/

namespace CodingChallenges

namespace WebServer

/-- One dot is inserted as a piece of a path. Behind a path that ends with a slash it can also
    take the place of the empty piece there. -/
def InsertsDot (path path' : List UInt8) : Prop :=
  ∃ before after, segments path = before ++ after ∧
    (segments path' = before ++ bytes "." :: after ∨
      after = [[]] ∧ segments path' = before ++ [bytes "."])

/-- The last piece is treated apart from the others. -/
theorem climb_concat (components : Components) (inner : List (List UInt8)) (last : List UInt8) :
    climb components (inner ++ [last]) =
      (inner.foldlM innerSegment components).bind fun components =>
        lastSegment components last := by
  induction inner generalizing components with
  | nil => rfl
  | cons segment inner ih =>
      have hne : inner ++ [last] ≠ [] := List.append_ne_nil_of_right_ne_nil _ (List.cons_ne_nil _ _)
      rw [List.cons_append, climb_cons _ _ hne, List.foldlM_cons]
      cases innerSegment components segment with
      | none => rfl
      | some components' => exact ih components'

/-- In front of other pieces one dot is skipped. -/
theorem climb_insert (components : Components) (before : List (List UInt8))
    {after : List (List UInt8)} (hne : after ≠ []) :
    climb components (before ++ bytes "." :: after) = climb components (before ++ after) := by
  rcases List.eq_nil_or_concat after with hnil | ⟨inner, last, rfl⟩
  · exact absurd hnil hne
  -- The last of the pieces behind it stays the last one.
  have hskip : ∀ components', (bytes "." :: inner).foldlM innerSegment components' =
      inner.foldlM innerSegment components' := by
    intro components'
    rw [List.foldlM_cons, innerSegment_skip (Or.inl rfl)]
    rfl
  rw [List.concat_eq_append, ← List.cons_append, ← List.append_assoc, ← List.append_assoc,
    climb_concat, climb_concat, List.foldlM_append, List.foldlM_append]
  simp only [hskip]

/-- Only one dot is treated differently behind the last slash. -/
theorem innerSegment_eq (components : Components) {segment : List UInt8} (h : segment ≠ bytes ".") :
    innerSegment components segment = lastSegment components segment := by
  rcases segment_cases segment with hskip | rfl | hname
  · rcases hskip with rfl | rfl
    · exact absurd rfl h
    · rw [innerSegment_skip (Or.inr rfl), lastSegment_nil]
  · rw [innerSegment_up, lastSegment_up]
  · rw [innerSegment_name hname, lastSegment_push hname.1 hname.2.2]

theorem lastSegment_dot (components : Components) :
    lastSegment components (bytes ".") = some (components ++ [bytes "."]) :=
  lastSegment_push (by decide) (by decide)

/-- Behind other pieces it is put on the stack, unless the last of them is one dot too. -/
theorem climb_append_dot {components result : Components} {inner : List (List UInt8)}
    {last : List UInt8} (h : climb components (inner ++ [last]) = some result) :
    climb components (inner ++ [last] ++ [bytes "."]) = some result ↔ last = bytes "." := by
  rw [climb_concat, Option.bind_eq_some_iff] at h
  rcases h with ⟨components', hinner, hlast⟩
  have hfold :
      (inner ++ [last]).foldlM innerSegment components = innerSegment components' last := by
    rw [List.foldlM_append, hinner, Option.bind_eq_bind, Option.bind_some, List.foldlM_cons]
    cases innerSegment components' last <;> rfl
  rw [climb_concat, hfold]
  -- The piece that was the last one now has a slash behind it.
  by_cases hdot : last = bytes "."
  · subst hdot
    refine iff_of_true ?_ rfl
    rw [innerSegment_skip (Or.inl rfl), Option.bind_some, ← hlast]
  · refine iff_of_false ?_ hdot
    rw [innerSegment_eq components' hdot, hlast, Option.bind_some, lastSegment_dot,
      Option.some.injEq]
    exact fun hsame => List.cons_ne_nil _ _ (List.append_right_eq_self.mp hsame)

/-- In the place of an empty last piece it is put on the stack. -/
theorem climb_replace_nil {components result : Components} {before : List (List UInt8)}
    (h : climb components (before ++ [[]]) = some result) :
    climb components (before ++ [bytes "."]) ≠ some result := by
  rw [climb_concat, Option.bind_eq_some_iff] at h
  rcases h with ⟨components', hinner, hlast⟩
  rw [lastSegment_nil, Option.some.injEq] at hlast
  rw [climb_concat, hinner, Option.bind_some, lastSegment_dot, hlast, Ne, Option.some.injEq]
  exact fun hsame => List.cons_ne_nil _ _ (List.append_right_eq_self.mp hsame)

theorem mem_segments {path : List UInt8} {b : UInt8} (hb : b ∈ path) (hback : b ≠ 92)
    (hslash : b ≠ 47) : ∃ segment ∈ segments path, b ∈ segment := by
  have hmem : b ∈ path.map toSlash := List.mem_map.mpr ⟨b, hb, if_neg hback⟩
  have hjoin : List.intercalate [47] ((path.map toSlash).splitOn 47) = path.map toSlash :=
    List.intercalate_splitOn 47
  rw [← hjoin] at hmem
  rcases Delimiter.mem_intercalate hmem with hsame | hsegment
  · exact absurd (List.mem_singleton.mp hsame) hslash
  · exact hsegment

/-- No percent sign is inserted. -/
theorem InsertsDot.not_mem {path path' : List UInt8} (h : InsertsDot path path')
    (hfree : 37 ∉ path) : 37 ∉ path' := by
  intro hmem
  rcases mem_segments hmem (by decide) (by decide) with ⟨segment, hsegment, hb⟩
  have hdot : 37 ∉ bytes "." := by decide
  rcases h with ⟨before, after, hpath, hpath' | ⟨-, hpath'⟩⟩
  · rw [hpath', List.mem_append, List.mem_cons] at hsegment
    have hinside : segment ∈ segments path ∨ segment = bytes "." := by
      rw [hpath, List.mem_append]
      rcases hsegment with hbefore | hsame | hafter
      · exact Or.inl (Or.inl hbefore)
      · exact Or.inr hsame
      · exact Or.inl (Or.inr hafter)
    rcases hinside with hinside | rfl
    · exact (of_mem_segments hfree hinside).2.2 hb
    · exact hdot hb
  · rw [hpath', List.mem_append, List.mem_singleton] at hsegment
    rcases hsegment with hbefore | rfl
    · have hinside : segment ∈ segments path := by
        rw [hpath]
        exact List.mem_append_left _ hbefore
      exact (of_mem_segments hfree hinside).2.2 hb
    · exact hdot hb

/-- Of a path without percent signs the components are what is left on the stack. -/
theorem normalizeRequest_eq_some_iff (method : HttpMethod) {path : List UInt8}
    {components : Components} (hfree : 37 ∉ path) (hcomponents : Normalised components) :
    normalizeRequest ⟨method, path⟩ = some ⟨method, joinPath components⟩ ↔
      climb [] (segments path) = some components := by
  rw [normalizeRequest_eq]
  simp only
  rw [urlDecode_of_not_mem hfree, Option.bind_some, Option.map_eq_some_iff]
  constructor
  · rintro ⟨components', hclimb, hsame⟩
    have hnormalised := normalised_of_climb hfree hclimb
    have hjoin : joinPath components' = joinPath components := congrArg HttpRequest.path hsame
    have hsplit := climb_segments_joinPath hnormalised
    rw [hjoin, climb_segments_joinPath hcomponents] at hsplit
    rw [hclimb, hsplit]
  · intro hclimb
    exact ⟨components, hclimb, rfl⟩

/-- Whatever the path is and wherever one dot is inserted: the result is the same exactly if one
    dot does not become the last piece, or already was. -/
theorem normalizeRequest_dot_iff (method : HttpMethod) (path path' : List UInt8)
    (result : HttpRequest) (hfree : 37 ∉ path) (hinserts : InsertsDot path path')
    (h : normalizeRequest ⟨method, path⟩ = some result) :
    normalizeRequest ⟨method, path'⟩ = some result ↔
      ((segments path').getLast? = some (bytes ".") →
        (segments path).getLast? = some (bytes ".")) := by
  have hfree' := hinserts.not_mem hfree
  have hclimb := h
  rw [normalizeRequest_eq] at hclimb
  simp only at hclimb
  rw [urlDecode_of_not_mem hfree, Option.bind_some, Option.map_eq_some_iff] at hclimb
  rcases hclimb with ⟨components, hclimb, rfl⟩
  have hnormalised := normalised_of_climb hfree hclimb
  rw [normalizeRequest_eq_some_iff method hfree' hnormalised]
  rcases hinserts with ⟨before, after, hpath, hpath' | ⟨rfl, hpath'⟩⟩
  · rw [hpath] at hclimb ⊢
    rw [hpath']
    by_cases hnil : after = []
    · -- One dot comes behind the path.
      subst hnil
      rcases List.eq_nil_or_concat before with hempty | ⟨inner, last, hbefore⟩
      · rw [hempty] at hpath
        exact absurd hpath (List.splitOn_ne_nil _ _)
      rw [List.concat_eq_append] at hbefore
      rw [List.append_nil, hbefore] at hclimb ⊢
      rw [climb_append_dot hclimb, List.getLast?_concat, List.getLast?_concat,
        ← Option.some.injEq last]
      exact ⟨fun hdot _ => hdot, fun himp => himp rfl⟩
    -- One dot comes in front of other pieces.
    · rw [climb_insert [] before hnil]
      refine iff_of_true hclimb fun hlast => ?_
      rw [List.append_cons, List.getLast?_append_of_ne_nil _ hnil] at hlast
      rw [List.getLast?_append_of_ne_nil _ hnil]
      exact hlast
  -- It takes the place of the empty piece behind the last slash.
  · rw [hpath] at hclimb ⊢
    rw [hpath']
    refine iff_of_false (climb_replace_nil hclimb) fun himp => ?_
    have hlast := himp List.getLast?_concat
    rw [List.getLast?_concat, Option.some.injEq] at hlast
    exact absurd hlast (by decide)

/-- One dot in front of a name. -/
theorem normalizeRequest_dot_iff_inner :
    normalizeRequest ⟨.get, bytes "/./a"⟩ = some ⟨.get, bytes "/a"⟩ ↔
      ((segments (bytes "/./a")).getLast? = some (bytes ".") →
        (segments (bytes "/a")).getLast? = some (bytes ".")) :=
  normalizeRequest_dot_iff .get (bytes "/a") (bytes "/./a") ⟨.get, bytes "/a"⟩ (by decide)
    ⟨[[]], [bytes "a"], by decide, Or.inl (by decide)⟩
    (normalizeRequest_of_normalised .get (by decide : Normalised [bytes "a"]))

/-- One dot behind a name. -/
theorem not_normalizeRequest_dot :
    ¬ ∀ (method : HttpMethod) (path path' : List UInt8) (result : HttpRequest), 37 ∉ path →
      InsertsDot path path' → normalizeRequest ⟨method, path⟩ = some result →
        normalizeRequest ⟨method, path'⟩ = some result := by
  intro h
  have hname : normalizeRequest ⟨.get, bytes "/a"⟩ = some ⟨.get, bytes "/a"⟩ :=
    normalizeRequest_of_normalised .get (by decide : Normalised [bytes "a"])
  have hdot : normalizeRequest ⟨.get, bytes "/a/."⟩ = some ⟨.get, bytes "/a/."⟩ :=
    normalizeRequest_of_normalised .get (by decide : Normalised [bytes "a", bytes "."])
  have hsame := h .get (bytes "/a") (bytes "/a/.") _ (by decide)
    ⟨[[], bytes "a"], [], by decide, Or.inl (by decide)⟩ hname
  rw [hdot] at hsame
  exact absurd hsame (by decide)

end WebServer

end CodingChallenges
