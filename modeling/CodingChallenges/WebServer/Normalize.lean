import CodingChallenges.WebServer.HttpRequestParser
import CodingChallenges.WebServer.UrlDecode

/-!
# Normalising a Request

`normalize_request` of `WebServer.cpp`.

The decoded path is split at its slashes, backslashes being slashes as well, and its components
are put on a stack. Two dots take the component off that was put on last, and it is an error if
there is none. One dot and nothing at all are skipped, but only in front of a slash: what comes
behind the last slash is put on the stack even if it is one dot.

## Main definitions

* `replaceAll`, `splitPath`, `joinPath`, `normalizeRequest`: The functions of the source.
* `innerSegment`, `lastSegment`, `climb`: What is done with the pieces between the slashes.

## Theorems

* `replaceAll_eq`: Backslashes become slashes.
* `splitPath_eq`: The loop goes through the pieces between the slashes.
* `joinPath_eq`, `normalizeRequest_eq`: What is made of the components, and the whole function.
-/

namespace CodingChallenges

namespace WebServer

open Delimiter

/-- The loop of `replace_all`. -/
def replaceFrom (target replacement str : List UInt8) (startPos : Nat) : List UInt8 :=
  if _hne : target = [] then str
  else
    match _hfind : findFrom target str startPos with
    | none => str
    | some pos =>
      replaceFrom target replacement
        (str.take pos ++ replacement ++ str.drop (pos + target.length)) (pos + replacement.length)
termination_by str.length - startPos
decreasing_by
  have hle := findFrom_le _hfind _hne
  have hpos := List.length_pos_iff.mpr _hne
  simp only [List.length_append, List.length_take, List.length_drop]
  omega

/-- An empty target is not replaced. -/
def replaceAll (str target replacement : List UInt8) : List UInt8 :=
  replaceFrom target replacement str 0

/-- The parts of a path. -/
abbrev Components := List (List UInt8)

/-- One component less. -/
def popComponent (components : Components) : Option Components :=
  if components = [] then none else some components.dropLast

/-- The loop over the components of a path. -/
def splitPath (path : List UInt8) (startPos : Nat) (components : Components) : Option Components :=
  if startPos < path.length then
    match _hfind : findFrom [47] path startPos with
    | none =>
      let component := path.drop startPos
      -- Here one dot is not skipped.
      if component = bytes ".." then popComponent components
      else some (components ++ [component])
    | some slashPos =>
      let component := (path.drop startPos).take (slashPos - startPos)
      -- Slashes next to each other have nothing between them.
      if component = bytes "." ∨ component = [] then splitPath path (slashPos + 1) components
      else if component = bytes ".." then
        match popComponent components with
        | none => none
        | some components => splitPath path (slashPos + 1) components
      else splitPath path (slashPos + 1) (components ++ [component])
  else some components
termination_by path.length - startPos
decreasing_by
  all_goals
    have hle := findFrom_le _hfind (List.cons_ne_nil _ _)
    omega

/-- The components with a slash in front of each, or a slash alone. -/
def joinPath (components : Components) : List UInt8 :=
  let path := components.foldl (fun path component => path ++ (component ++ [47])) [47]
  -- The slash behind the last component is taken off, but not the one in front.
  if 1 < path.length then path.dropLast else path

/-- The path is decoded, split and joined again. -/
def normalizeRequest (request : HttpRequest) : Option HttpRequest := do
  let path ← urlDecode request.path
  let path := replaceAll path [92] [47]
  let components ← splitPath path 0 []
  some ⟨request.method, joinPath components⟩

/-- What is done with a piece in front of a slash. -/
def innerSegment (components : Components) (segment : List UInt8) : Option Components :=
  if segment = bytes "." ∨ segment = [] then some components
  else if segment = bytes ".." then popComponent components
  else some (components ++ [segment])

/-- What is done with the piece behind the last slash. If it is empty, the loop has ended. -/
def lastSegment (components : Components) (segment : List UInt8) : Option Components :=
  if segment = [] then some components
  else if segment = bytes ".." then popComponent components
  else some (components ++ [segment])

/-- What is done with the pieces of a path. -/
def climb (components : Components) : List (List UInt8) → Option Components
  | [] => some components
  | [segment] => lastSegment components segment
  | segment :: segments =>
    match innerSegment components segment with
    | none => none
    | some components => climb components segments

section Loops

variable {front rest : List UInt8}

/-- Backslashes become slashes. -/
def toSlash (b : UInt8) : UInt8 :=
  if b = 92 then 47 else b

theorem toSlash_ne_backslash (b : UInt8) : toSlash b ≠ 92 := by
  unfold toSlash
  split_ifs with h
  · decide
  · exact h

theorem eq_of_toSlash {b c : UInt8} (h : toSlash b = c) (hc : c ≠ 47) : b = c := by
  unfold toSlash at h
  split_ifs at h
  · exact absurd h.symm hc
  · exact h

theorem map_toSlash {path : List UInt8} (h : 92 ∉ path) : path.map toSlash = path := by
  have hsame : ∀ b ∈ path, toSlash b = id b := by
    intro b hb
    refine if_neg ?_
    rintro rfl
    exact h hb
  exact (List.map_congr_left hsame).trans (List.map_id path)

theorem replaceFrom_none {str : List UInt8} {pos : Nat} (h : findFrom [92] str pos = none) :
    replaceFrom [92] [47] str pos = str := by
  rw [replaceFrom, dif_neg (List.cons_ne_nil _ _)]
  split
  · rfl
  · next pos' hpos =>
      rw [h] at hpos
      cases hpos

theorem replaceFrom_some {str : List UInt8} {pos pos' : Nat}
    (h : findFrom [92] str pos = some pos') :
    replaceFrom [92] [47] str pos =
      replaceFrom [92] [47] (str.take pos' ++ [47] ++ str.drop (pos' + 1)) (pos' + 1) := by
  rw [replaceFrom, dif_neg (List.cons_ne_nil _ _)]
  split
  · next hpos =>
      rw [h] at hpos
      cases hpos
  · next pos'' hpos =>
      rw [h] at hpos
      cases hpos
      rfl

theorem replaceFrom_congr {str : List UInt8} {pos pos' : Nat}
    (h : findFrom [92] str pos = findFrom [92] str pos') :
    replaceFrom [92] [47] str pos = replaceFrom [92] [47] str pos' := by
  cases hpos : findFrom [92] str pos with
  | none => rw [replaceFrom_none hpos, replaceFrom_none (h.symm.trans hpos)]
  | some i => rw [replaceFrom_some hpos, replaceFrom_some (h.symm.trans hpos)]

/-- The loop replaces the backslashes of the rest. -/
theorem replaceFrom_eq (front rest : List UInt8) :
    replaceFrom [92] [47] (front ++ rest) front.length = front ++ rest.map toSlash := by
  -- What has been replaced is not looked at again, so `front` may hold anything.
  induction rest generalizing front with
  | nil =>
      have hnone : findFrom [92] (front ++ []) front.length = none := by
        rw [findFrom_append]
        rfl
      rw [replaceFrom_none hnone]
      rfl
  | cons b rest ih =>
      by_cases hb : b = 92
      · subst hb
        have hrest := ih (front ++ [47])
        rw [List.length_append, List.length_singleton, List.append_assoc front] at hrest
        rw [replaceFrom_some (findFrom_singleton front rest), List.take_left, ← List.drop_drop,
          List.drop_left, List.append_assoc]
        exact hrest.trans (List.append_assoc _ _ _)
      · have hrest := ih (front ++ [b])
        have hfind := findFrom_cons front rest hb
        rw [List.append_cons] at hfind
        rw [List.append_cons, replaceFrom_congr hfind, hrest, List.map_cons, toSlash, if_neg hb,
          List.append_assoc, List.singleton_append]

theorem replaceAll_eq (str : List UInt8) : replaceAll str [92] [47] = str.map toSlash :=
  replaceFrom_eq [] str

theorem splitPath_behind {path : List UInt8} {pos : Nat} (components : Components)
    (h : path.length ≤ pos) : splitPath path pos components = some components := by
  rw [splitPath, if_neg (by omega)]

/-- The piece behind the last slash. -/
theorem splitPath_last (components : Components) (hfree : 47 ∉ rest) :
    splitPath (front ++ rest) front.length components = lastSegment components rest := by
  by_cases hnil : rest = []
  · rw [splitPath_behind, lastSegment, if_pos hnil]
    rw [hnil, List.append_nil]
  have hpos := List.length_pos_iff.mpr hnil
  have hnone : findFrom [47] (front ++ rest) front.length = none := by
    rw [findFrom_append, find_singleton_eq_none hfree]
    rfl
  rw [splitPath, if_pos (by rw [List.length_append]; omega), lastSegment, if_neg hnil]
  split
  · rw [List.drop_left]
  · next slashPos hslash =>
      rw [hnone] at hslash
      cases hslash

/-- A piece in front of a slash. -/
theorem splitPath_inner {segment : List UInt8} (components : Components) (hfree : 47 ∉ segment) :
    splitPath (front ++ (segment ++ 47 :: rest)) front.length components =
      match innerSegment components segment with
      | none => none
      | some components =>
        splitPath (front ++ (segment ++ 47 :: rest)) (front.length + segment.length + 1)
          components := by
  have hsome : findFrom [47] (front ++ (segment ++ 47 :: rest)) front.length =
      some (front.length + segment.length) := by
    rw [findFrom_append, find_singleton hfree]
    rfl
  have hlt : front.length < (front ++ (segment ++ 47 :: rest)).length := by
    rw [List.length_append, List.length_append, List.length_cons]
    omega
  rw [splitPath, if_pos hlt]
  split
  · next hnone =>
      rw [hsome] at hnone
      cases hnone
  · next slashPos hslash =>
      rw [hsome] at hslash
      cases hslash
      simp only [List.drop_left, Nat.add_sub_cancel_left, List.take_left, innerSegment]
      split_ifs <;> rfl

theorem climb_cons (components : Components) (segment : List UInt8) {segments : List (List UInt8)}
    (hne : segments ≠ []) :
    climb components (segment :: segments) =
      match innerSegment components segment with
      | none => none
      | some components => climb components segments := by
  rcases List.exists_cons_of_ne_nil hne with ⟨segment', segments', rfl⟩
  rfl

/-- The loop goes through the pieces. -/
theorem splitPath_eq (front rest : List UInt8) (components : Components) :
    splitPath (front ++ rest) front.length components = climb components (rest.splitOn 47) := by
  -- Each round takes the piece up to the next slash, and the last one what is behind it.
  induction hn : rest.length using Nat.strongRecOn generalizing front rest components with
  | _ n ih =>
      by_cases hslash : 47 ∈ rest
      · rcases List.eq_append_cons_of_mem hslash with ⟨segment, rest', rfl, hfree⟩
        have hshorter : rest'.length < n := by
          rw [← hn, List.length_append, List.length_cons]
          omega
        have hpos : front.length + segment.length + 1 = (front ++ (segment ++ [47])).length := by
          rw [List.length_append, List.length_append, ← Nat.add_assoc]
          rfl
        have hpath : front ++ (segment ++ 47 :: rest') = front ++ (segment ++ [47]) ++ rest' := by
          rw [List.append_assoc, List.append_assoc]
          rfl
        rw [splitPath_inner components hfree, List.splitOn_append_cons_self_of_not_mem hfree,
          climb_cons _ _ (List.splitOn_ne_nil _ _)]
        cases innerSegment components segment with
        | none => rfl
        | some components' =>
            simp only [hpos, hpath]
            exact ih _ hshorter _ _ _ rfl
      · rw [List.splitOn_eq_singleton hslash]
        exact splitPath_last components hslash

end Loops

/-- The pieces of a path between its slashes. -/
def segments (path : List UInt8) : List (List UInt8) :=
  (path.map toSlash).splitOn 47

/-- The whole function. -/
theorem normalizeRequest_eq (request : HttpRequest) :
    normalizeRequest request =
      (urlDecode request.path).bind fun path =>
        (climb [] (segments path)).map fun components => ⟨request.method, joinPath components⟩ := by
  rw [normalizeRequest]
  cases urlDecode request.path with
  | none => rfl
  | some path =>
      have hsplit : splitPath (path.map toSlash) 0 [] = climb [] (segments path) :=
        splitPath_eq [] (path.map toSlash) []
      simp only [Option.bind_eq_bind, Option.bind_some, replaceAll_eq, hsplit]
      cases climb [] (segments path) <;> rfl

theorem foldl_join (path : List UInt8) (components : Components) :
    components.foldl (fun path component => path ++ (component ++ [47])) path =
      path ++ components.flatMap (fun component => component ++ [47]) := by
  induction components generalizing path with
  | nil => exact (List.append_nil _).symm
  | cons component components ih =>
      rw [List.foldl_cons, ih, List.flatMap_cons, List.append_assoc path]

/-- A slash, and the components with slashes between them. -/
theorem joinPath_eq (components : Components) :
    joinPath components = 47 :: List.intercalate [47] components := by
  rw [joinPath, foldl_join]
  cases components with
  | nil => rfl
  | cons component components =>
      have hlong :
          1 < ([47] ++ (List.intercalate [47] (component :: components) ++ [47])).length := by
        rw [List.length_append, List.length_append, List.length_singleton]
        omega
      rw [flatMap_terminated [47] (List.cons_ne_nil _ _)]
      rw [if_pos hlong, ← List.append_assoc, List.dropLast_concat]
      rfl

end WebServer

end CodingChallenges
